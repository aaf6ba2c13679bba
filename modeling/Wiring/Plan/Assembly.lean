import Wiring.Plan.Schedule
import Wiring.Survey.Suspension

/-!
# Assembling plans

From a provider to the plan that produces its value. The assembly goes through the dependencies depth
first. Each provider met yields one step that creates its value, after the steps of everything the
creation needs, and further steps to initialise it and to wait for it. Each value gets a variable of
its own.

* A shared value obtained once in a plan is used again (`State.obtained`).
* A singleton is asked for at its accessor, except in the plan of that accessor.
* The body of a delegate or owned value is a plan of its own, assembled on the spot. It may use the
  singletons that the plan around it has obtained. A delegate inside its own body is the variable of
  the delegate around.
* A synchronous delegate cannot wait inside its body. Created where waiting is possible, it first
  obtains the singletons its body needs that suspend.

A plan that waits is arranged by the scheduler at the end. Requests that follow one another are
counted from the start of each body (`budget`), bodies inside one another by `nesting`.
-/

namespace Wiring.Assembly

/-- What holds throughout a planning run, in every plan and body. -/
structure Settings where
  container : Environment
  scheduler : Scheduler
  /-- How many requests may follow one another within a body. -/
  maxDepth : Nat
  trigger : Trigger

/-- How much deeper than requests may follow one another bodies can be nested. This is no rule of
planning, which has none for bodies: an owned value that contains itself would be planned without end,
and this much stands for the stack that it would exhaust. -/
def nestingAllowance : Nat := 65536

/-- How many bodies there is room for in one another. -/
def Settings.maxNesting (c : Settings) : Nat :=
  c.maxDepth + nestingAllowance

/-- What holds throughout one plan. Each body has a scope of its own. -/
structure Scope where
  /-- Whether what can be released either way is released asynchronously. -/
  asyncRelease : Bool
  /-- Whether waiting is possible. -/
  isAsync : Bool
  /-- The delegates whose bodies are around, with their variables. -/
  around : List (Provider.Identity × String)
  /-- The singleton whose accessor is planned, if one is. -/
  accessorOf? : Option Provider

/-- A value obtained: its variable and the step that provides it. A parameter, and the delegate
around, have no step. -/
structure Supply where
  name : String
  step? : Option Step

/-- What the assembly keeps track of. The counters and the answers last for the whole run, what was
obtained and the steps for one plan. -/
structure State where
  /-- The number of variables and functions named. -/
  named : Nat
  /-- The number of steps made. -/
  numbered : Nat
  answers : Survey.Answers
  /-- The values that may be used again, the latest first, and the functions of owned values. -/
  obtained : List (Provider.Identity × Supply)
  /-- The steps of the plan, in order. -/
  steps : List Step

/-- A part of the assembly. -/
abbrev Assemble := EStateM PlanError State

/-- Assembles the plan of a body: its scope, its environment and the provider of its value. The body
starts with the values it may use. -/
abbrev AssembleBody :=
  Scope → Environment → Provider → List (Provider.Identity × Supply) → Assemble Plan

/-! ### Limits -/

/-- Fails if the run was cancelled. -/
def checkpoint (c : Settings) : Assemble Unit := do
  if c.trigger.hasFired 0 then throw .cancelled

/-- The end of the budget. -/
def exhausted (c : Settings) : Assemble α := do
  checkpoint c
  throw (.depthExceeded c.maxDepth)

/-! ### Names, steps and values -/

/-- The next number for a name. -/
def nextName : Assemble Nat :=
  modifyGet fun s => (s.named, { s with named := s.named + 1 })

/-- A new variable for a value of a type: the type, the number of bodies around and a number. -/
def newVariable (ty : Ty) (env : Environment) : Assemble String := do
  return ty.identifier ++ "_" ++ toString env.depth ++ "_" ++ toString (← nextName)

/-- A new function for an owned value. -/
def newFunction (ty : Ty) : Assemble String := do
  return "create_" ++ ty.identifier ++ "_" ++ toString (← nextName)

/-- Adds a step at the end of the plan. Whether its release can run is settled here: one that suspends
cannot where the plan cannot wait. -/
def emit (scope : Scope) (statement : Statement) (release : Option Release) (needs : List Step) :
    Assemble Step :=
  modifyGet fun s =>
    let step : Step :=
      { id := s.numbered
        statement
        release
        needs
        releasable := release.any fun r => !r.isAsync || scope.isAsync }
    (step, { s with numbered := s.numbered + 1, steps := s.steps ++ [step] })

/-- Notes a value under the identity of its provider. -/
def note (p : Provider) (supply : Supply) : Assemble Unit :=
  modify fun s => { s with obtained := (p.identity, supply) :: s.obtained }

/-- The value noted under the identity of a provider. -/
def noted? (p : Provider) : Assemble (Option Supply) := do
  return ((← get).obtained.find? fun entry => entry.1 = p.identity).map (·.2)

/-- Whether producing the value of a provider suspends. The answer is remembered for the rest of the
run. -/
def suspends (c : Settings) (p : Provider) : Assemble Bool := do
  let s ← get
  match Survey.suspendsWith c.maxDepth c.trigger c.container p s.answers with
  | .ok (answer, answers) =>
      set { s with answers }
      return answer
  | .error e => throw e

/-- The singletons to obtain before a synchronous delegate is created: those its body needs that
suspend, in the order in which they are met. -/
def singletonsAhead (c : Settings) (env : Environment) (delegate : Provider) :
    Assemble (List Provider) := do
  let s ← get
  match Survey.singletonsAhead c.maxDepth c.trigger env delegate s.answers with
  | .ok (ahead, answers) =>
      set { s with answers }
      return ahead
  | .error e => throw e

/-! ### Releases -/

/-- The release of a value that offers the given ways of being released. -/
def releaseOf (scope : Scope) (disposability : Disposability) (name : String) : Option Release :=
  if disposability.isDisposable then
    some (.dispose name (disposability.isAsync scope.asyncRelease))
  else none

/-- The release of the value that a provider creates from arguments and that `name` holds once it is
there. A factory, its only argument, takes its value back. -/
def creationRelease (scope : Scope) (p : Provider) (args : List (Option String)) (name : String) :
    Option Release :=
  match p with
  | .factory _ _ _ _ isAsync => args.head?.join.map fun maker => .giveBack name maker isAsync
  | .construct _ rule => releaseOf scope rule.disposability name
  | .call _ rule => releaseOf scope rule.disposability name
  | .decorated _ decorator _ => releaseOf scope decorator.release name
  | _ => none

/-- The release of a delegate, if its body creates anything to release. -/
def bodyRelease (scope : Scope) (body : Plan) (registry : String) : Option Release :=
  match body.steps.filterMap Step.release with
  | [] => none
  | releases => some (.drain registry (releases.any Release.isAsync || scope.asyncRelease))

/-! ### Obtaining values -/

/-- The value of a provider that is at hand: obtained before, or the delegate around. -/
def atHand? (scope : Scope) (p : Provider) : Assemble (Option Supply) := do
  let supply? ← if p.lifetime.isShared then noted? p else pure none
  match supply? with
  | some supply => return some supply
  | none =>
      if p.isDelegate then
        return (scope.around.find? fun entry => entry.1 = p.identity).map fun entry =>
          ⟨entry.2, none⟩
      else return none

/-- Whether a provider is asked for at its accessor: every singleton but the one whose accessor is
planned. A value the container holds is read directly, and a forwarded one leads to what it
forwards. -/
def usesAccessor (scope : Scope) (isTarget : Bool) (p : Provider) : Bool :=
  match p with
  | .held _ | .forwarded .. => false
  | _ =>
      p.lifetime = .single &&
        !(scope.accessorOf?.any fun owner => isTarget || p.sameSite owner)

/-- Asks for a singleton at its accessor, and waits for it if that suspends. -/
def askAccessor (c : Settings) (scope : Scope) (env : Environment) (p : Provider) :
    Assemble Supply := do
  let name ← newVariable p.ty env
  if ← suspends c p then
    let awaited ← newVariable p.ty env
    let asking ← emit scope (.single name p true) none []
    let waiting ← emit scope (.await (some awaited) name (some p.ty)) none [asking]
    let supply := ⟨awaited, some waiting⟩
    note p supply
    return supply
  else
    let asking ← emit scope (.single name p false) none []
    let supply := ⟨name, some asking⟩
    note p supply
    return supply

/-- The noted values that a body may use: the singletons. -/
def singletonsNoted : Assemble (List (Provider.Identity × Supply)) := do
  return (← get).obtained.filter fun entry => entry.1.lifetime = .single

/-- Assembles the body of a provider whose value has the given type. -/
def assembleBody (nested : AssembleBody) (scope : Scope) (env : Environment) (ty : Ty) :
    Assemble Plan := do
  match env.lookup ty with
  | none => throw (.unprovidedBody ty)
  | some target => nested scope env target (← singletonsNoted)

/-- Creates a delegate whose body is resolved in `env`. -/
def createDelegate (nested : AssembleBody) (scope : Scope) (env : Environment) (p : Provider)
    (result : Ty) (isAsync : Bool) (name : String) (needs : List Step) : Assemble Step := do
  let inner : Scope :=
    { asyncRelease := scope.asyncRelease
      isAsync
      around := (p.identity, name) :: scope.around
      accessorOf? := none }
  let body ← assembleBody nested inner env result
  let registry := name ++ "_disposeActions"
  let release := bodyRelease scope body registry
  let statement := .delegate name p body registry
  match release with
  | some drain =>
      let opening ← emit scope (.registry registry drain.isAsync) none []
      emit scope statement release (needs ++ [opening])
  | none => emit scope statement release needs

/-- Creates an owned value, and first the function that produces it unless the plan has it already.
The body is resolved in `env`. -/
def createOwned (nested : AssembleBody) (scope : Scope) (env : Environment) (p : Provider)
    (value : Ty) (isAsync : Bool) (name : String) : Assemble Step := do
  let function ← match ← noted? p with
    | some function => pure function
    | none => do
        let inner : Scope :=
          { asyncRelease := isAsync, isAsync, around := scope.around, accessorOf? := none }
        let body ← assembleBody nested inner env value
        let function ← newFunction p.ty
        let defining ← emit scope (.ownedFunction function p scope.isAsync body) none []
        let supply := ⟨function, some defining⟩
        note p supply
        pure supply
  emit scope (.owned name p scope.isAsync function.name) none function.step?.toList

/-- Creates a value from arguments, initialises it and waits for it, as its provider asks. The last
step is the one after which `name` holds the finished value. -/
def createValue (scope : Scope) (env : Environment) (p : Provider) (name : String)
    (args : List (Option String)) (needs : List Step) : Assemble Step := do
  let release := creationRelease scope p args name
  if p.isInitialized then
    let creating ← emit scope (.create name p args) release needs
    if p.isAsync then
      let task ← newVariable p.ty env
      let starting ← emit scope (.start (some task) name true) none [creating]
      emit scope (.await none task none) none [starting]
    else emit scope (.start none name false) none [creating]
  else if p.isAsync then
    let task ← newVariable p.ty env
    let creating ← emit scope (.create task p args) release needs
    emit scope (.await (some name) task (some p.ty)) none [creating]
  else emit scope (.create name p args) release needs

/-- Obtains the value of a provider requested in `env`. `budget` is how many requests may still
follow one another, this one included; `isTarget` says that the provider is the one planned for. -/
def obtain (c : Settings) (nested : AssembleBody) (scope : Scope) :
    (budget : Nat) → (isTarget : Bool) → Environment → Provider → Assemble Supply
  | 0, _, _, _ => exhausted c
  | budget + 1, isTarget, env, p => do
      checkpoint c
      match ← atHand? scope p with
      | some supply => return supply
      | none =>
          if usesAccessor scope isTarget p then askAccessor c scope env p
          else match p with
          | .parameter _ name _ => return ⟨name, none⟩
          | _ =>
              let name ← newVariable p.ty env
              let inside := env.enter p
              let step ← match p with
                | .delegate _ result _ isAsync => do
                    let ahead ← if scope.isAsync && !isAsync then singletonsAhead c env p else pure []
                    let supplies ← ahead.mapM fun q => obtain c nested scope budget false env q
                    createDelegate nested scope inside p result isAsync name
                      (supplies.filterMap Supply.step?)
                | .owned _ value isAsync => createOwned nested scope inside p value isAsync name
                | _ => do
                    let supplies ← (inside.requests p).mapM fun request =>
                      match request.provider? with
                      | some q => some <$> obtain c nested scope budget false inside q
                      | none => leaveOut budget request
                    createValue scope inside p name (supplies.map fun s => s.map Supply.name)
                      (supplies.filterMap fun s => s.bind Supply.step?)
              let supply := ⟨name, some step⟩
              if p.lifetime.isShared then note p supply
              return supply
where
  /-- Leaves out an optional parameter that nothing provides. -/
  leaveOut (budget : Nat) (request : Request) : Assemble (Option Supply) := do
    if budget = 0 then exhausted c
    checkpoint c
    if request.optional then return none else throw (.unprovided request.ty)

/-- Assembles the plan for a provider. `nesting` is how many bodies may still be nested in one
another, this one included. -/
def assemble (c : Settings) : (nesting : Nat) → AssembleBody
  | 0, _, _, _, _ => throw (.nestingExceeded c.maxNesting)
  | nesting + 1, scope, env, target, known => do
      let outer ← get
      set { outer with obtained := known, steps := [] }
      let supply ← obtain c (assemble c nesting) scope (c.maxDepth + 1) true env target
      let steps := (← get).steps
      modify fun s => { s with obtained := outer.obtained, steps := outer.steps }
      if scope.isAsync then
        match c.scheduler.arrange steps with
        | .ok arranged => return ⟨arranged, supply.name⟩
        | .error e => throw e
      else return ⟨steps, supply.name⟩

/-- What holds throughout the assembly of a plan on its own. -/
def Settings.ofConfig (config : Config) (trigger : Trigger) (env : Environment) : Settings where
  container := env.root
  scheduler := config.scheduler
  maxDepth := config.maxDepth
  trigger := trigger

/-- Nothing was named, made or obtained yet. -/
def State.initial : State := ⟨0, 0, [], [], []⟩

/-- The answer of a finished assembly. -/
def answer : EStateM.Result PlanError State Plan → Except PlanError Plan
  | .ok plan _ => .ok plan
  | .error e _ => .error e

/-- Assembles a plan on its own, with counters and memory of its own. -/
def run (config : Config) (trigger : Trigger) (scope : Scope) (env : Environment)
    (target : Provider) : Except PlanError Plan :=
  let c := Settings.ofConfig config trigger env
  answer (assemble c (c.maxNesting + 1) scope env target [] .initial)

end Wiring.Assembly

namespace Wiring

/-- The plan that resolves a provider in an environment. Asynchronous resolution may wait, and
releases asynchronously what can be released either way. -/
def planResolution (config : Config) (trigger : Trigger) (env : Environment) (isAsync : Bool)
    (target : Provider) : Except PlanError Plan :=
  Assembly.run config trigger
    { asyncRelease := isAsync, isAsync, around := [], accessorOf? := none } env target

/-- The plan of a singleton's accessor. The release follows the container, not the accessor. -/
def planAccessor (config : Config) (trigger : Trigger) (env : Environment)
    (asyncRelease isAsync : Bool) (target : Provider) : Except PlanError Plan :=
  Assembly.run config trigger
    { asyncRelease, isAsync, around := [], accessorOf? := some target } env target

end Wiring
