import Wiring.Check
import Wiring.Plan.Assembly

/-!
# Planning a container

A container resolves a list of roots. Each root is checked; one with faults is replaced by a stub,
the others are planned. Every singleton that a plan asks for gets an accessor with a plan of its own,
which may ask for further singletons.

* `Plan.singletons` lists the singletons a plan asks for, in the order of first use.
* `creationOrder` puts the singletons into an order in which each comes after the ones it asks for.
  Singletons may ask for one another through a delegate; where those left all wait for one another the
  lowest goes first. Singletons are released in the reverse order.
-/

namespace Wiring

/-! ### The singletons of a plan -/

/-- Adds a provider unless one of its identity is there. -/
def addNew (providers : List Provider) (p : Provider) : List Provider :=
  if providers.any p.same then providers else providers ++ [p]

mutual

/-- Adds the singletons that a statement asks for, its body included. Each is added once, where it is
first asked for. -/
def Statement.addSingletons (found : List Provider) : Statement → List Provider
  | .single _ p _ => addNew found p
  | .delegate _ _ body _ => body.addSingletons found
  | .ownedFunction _ _ _ body => body.addSingletons found
  | .registry .. | .owned .. | .create .. | .start .. | .await .. => found

/-- Adds the singletons that a plan asks for. -/
def Plan.addSingletons (found : List Provider) : Plan → List Provider
  | ⟨steps, _⟩ => addSingletonsOf found steps

/-- Adds the singletons that steps ask for. -/
def addSingletonsOf (found : List Provider) : List Step → List Provider
  | [] => found
  | ⟨_, statement, _, _, _⟩ :: rest => addSingletonsOf (statement.addSingletons found) rest

end

/-- The singletons that a plan asks for, in bodies too, in the order of first use. -/
def Plan.singletons (plan : Plan) : List Provider :=
  plan.addSingletons []

/-! ### Accessors -/

/-- The names that belong to the accessor of a singleton. -/
structure AccessorNames where
  /-- The field with the value. -/
  field : String
  /-- The lock held while the value is created. -/
  lock : String
  /-- The field with the hook that releases the value. -/
  release : String
  /-- The accessor itself. -/
  accessor : String
  deriving DecidableEq, Inhabited

/-- The names for the singleton of a type at a position. -/
def AccessorNames.ofType (ty : Ty) (index : Nat) : AccessorNames where
  field := "_" ++ ty.identifier ++ "_field" ++ toString index
  lock := "_lock" ++ toString index
  release := "_dispose_action" ++ toString index
  accessor := "get_" ++ ty.identifier ++ "_field" ++ toString index

/-- A singleton with the plan that creates it, and what its accessor is called. -/
structure Accessor where
  provider : Provider
  names : AccessorNames
  plan : Plan
  /-- Whether creating the value suspends. -/
  isAsync : Bool
  /-- The positions of the singletons it asks for, itself left out, in ascending order. -/
  dependencies : List Nat

/-! ### The order of creation -/

/-- The first of the remaining positions that depends on none of them, or simply the first. -/
def nextCreated (dependencies : Nat → List Nat) (remaining : List Nat) : Option Nat :=
  (remaining.find? fun i => (dependencies i).all fun d => !remaining.contains d).or remaining.head?

/-- Orders the remaining positions in at most `rounds` rounds. Each round takes one position, so as many
rounds as positions are enough. -/
def creationRounds (dependencies : Nat → List Nat) : (rounds : Nat) → List Nat → List Nat
  | 0, _ => []
  | rounds + 1, remaining =>
      match nextCreated dependencies remaining with
      | none => []
      | some i => i :: creationRounds dependencies rounds (remaining.erase i)

/-- The order in which to create as many singletons as there are lists of dependencies: each after
the ones it depends on, the lowest position first wherever there is a choice. -/
def creationOrder (dependencies : List (List Nat)) : List Nat :=
  creationRounds (fun i => (dependencies[i]?).getD []) dependencies.length
    (List.range dependencies.length)

/-! ### Container plans -/

/-- A type to resolve, and whether resolving it may wait. -/
structure RootRequest where
  ty : Ty
  isAsync : Bool
  deriving DecidableEq, Inhabited

/-- What became of a root: a plan, or a stub that tells its faults. -/
inductive RootOutcome where
  | plan (plan : Plan)
  /-- The root has faults; resolving it fails. -/
  | stub (diagnostics : List Diagnostic)

/-- A root with what became of it. -/
structure RootPlan where
  request : RootRequest
  outcome : RootOutcome

namespace RootPlan

/-- The plan of a root without faults. -/
def plan? (root : RootPlan) : Option Plan :=
  match root.outcome with
  | .plan plan => some plan
  | .stub _ => none

/-- Whether the root has faults. -/
def isStub (root : RootPlan) : Bool :=
  root.plan?.isNone

end RootPlan

/-- The plan of a container: those of its roots, those of the accessors of its singletons, and the order
in which the singletons are created. -/
structure ContainerPlan where
  roots : List RootPlan
  /-- The accessors, in the order in which the singletons were met. -/
  singletons : List Accessor
  /-- The positions of the singletons, in the order of their creation. -/
  creationOrder : List Nat
  /-- Whether a planned root touches raw memory. -/
  touchesRawMemory : Bool
  /-- Whether the container is released asynchronously. -/
  asyncRelease : Bool

namespace ContainerPlan

/-- The singletons in the order of their creation. -/
def created (plan : ContainerPlan) : List Accessor :=
  plan.creationOrder.filterMap fun i => plan.singletons[i]?

/-- The singletons in the order of their release. -/
def released (plan : ContainerPlan) : List Accessor :=
  plan.creationOrder.reverse.filterMap fun i => plan.singletons[i]?

/-- The roots that have faults. -/
def stubs (plan : ContainerPlan) : List RootPlan :=
  plan.roots.filter RootPlan.isStub

/-- The accessor of a type. -/
def singleton? (plan : ContainerPlan) (ty : Ty) : Option Accessor :=
  plan.singletons.find? fun accessor => accessor.provider.ty = ty

/-- How a container is planned: what it holds, the limits, and the place to name in diagnostics. -/
structure Settings where
  env : Environment
  config : Config
  trigger : Trigger
  location : Option Location

/-- Checks a root and plans it, unless it has faults. The second answer says whether it touches raw
memory. -/
def planRoot (c : Settings) (request : RootRequest) : Except PlanError (RootPlan × Bool) := do
  let checked := Check.run ⟨request.ty, c.config.maxDepth, c.trigger, c.location⟩ c.env request.isAsync
  if let some e := checked.error? then throw e
  if checked.diagnostics.isEmpty then
    match c.env.root.lookup request.ty with
    | none => throw (.unprovidedRoot request.ty)
    | some target => do
        let raw ← Survey.touchesRawMemory c.trigger c.env request.ty
        let plan ← planResolution c.config c.trigger c.env.root request.isAsync target
        return (⟨request, .plan plan⟩, raw)
  else return (⟨request, .stub checked.diagnostics⟩, false)

/-- The position of a provider's identity among those met. -/
def positionOf (met : List Provider) (p : Provider) : Option Nat :=
  met.findIdx? p.same

/-- Plans the accessor of the singleton at a position. The answers are the accessor, the singletons
met so far, and what is known about which of them suspend. -/
def planAccessorAt (c : Settings) (asyncRelease : Bool) (met : List Provider)
    (answers : Survey.Answers) (index : Nat) (p : Provider) :
    Except PlanError (Accessor × List Provider × Survey.Answers) := do
  if c.trigger.hasFired 0 then throw .cancelled
  let (isAsync, answers) ← Survey.suspendsWith c.config.maxDepth c.trigger c.env p answers
  let plan ← planAccessor c.config c.trigger c.env.root asyncRelease isAsync p
  let asked := plan.singletons
  let met := asked.foldl addNew met
  let positions := asked.filterMap (positionOf met)
  let dependencies := (List.range met.length).filter fun i => i != index && positions.contains i
  return (⟨p, .ofType p.ty index, plan, isAsync, dependencies⟩, met, answers)

/-- More accessors than memory has room for. This is no rule of planning, which takes as many as the
plans ask for; it stands for the memory that they would exhaust. -/
def accessorLimit : Nat := 0x10000000000000000

/-- Plans the accessors of the singletons met, and of those met on the way. `index` accessors are
planned already; `limit` is how many more may be. -/
def planAccessors (c : Settings) (asyncRelease : Bool) : (limit : Nat) → (index : Nat) →
    List Provider → Survey.Answers → Except PlanError (List Accessor)
  | limit, index, met, answers =>
      match met[index]? with
      | none => .ok []
      | some p =>
          match limit with
          | 0 => .error (.nestingExceeded accessorLimit)
          | limit + 1 => do
              let (accessor, met, answers) ← planAccessorAt c asyncRelease met answers index p
              return accessor :: (← planAccessors c asyncRelease limit (index + 1) met answers)

/-- Plans a container with the given roots. It is released asynchronously if a root is asynchronous. -/
def run (c : Settings) (requests : List RootRequest) : Except PlanError ContainerPlan := do
  let asyncRelease := requests.any RootRequest.isAsync
  let planned ← requests.mapM (planRoot c)
  let roots := planned.map (·.1)
  let met := (roots.filterMap RootPlan.plan?).foldl (fun met plan => plan.singletons.foldl addNew met) []
  let singletons ← planAccessors c asyncRelease accessorLimit 0 met []
  return {
    roots
    singletons
    creationOrder := Wiring.creationOrder (singletons.map Accessor.dependencies)
    touchesRawMemory := planned.any (·.2)
    asyncRelease }

end ContainerPlan

end Wiring
