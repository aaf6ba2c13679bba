import Wiring.Lifecycle.Join
import Wiring.Lifecycle.Ledger

/-!
# The objects of a running program

`Store` holds every object that a program around its containers has made so far. Objects are numbered
per kind in the order in which they were made, and a command names them by their numbers. A command
gets an answer and leaves lines in the log; one that names an object that does not exist gets none.
-/

namespace Wiring.Lifecycle

/-- All objects made so far, with the log. None is ever removed, so that its number stays its name. -/
structure Store where
  containers : List Container := []
  cells : List (Cell String) := []
  /-- The cells whose instances take waiting to create. -/
  asyncCells : List (Cell String) := []
  /-- The hooks handed out, each until it has run. -/
  handed : List (Option Hook) := []
  /-- The registries and the owned values, and the log. -/
  ledger : Ledger := .empty
  deriving Inhabited

/-- What a program does with its objects, which it names by the order in which they were made. -/
inductive Command where
  | newContainer (name : String)
  | beginDisposal (container : Nat)
  | isDisposed (container : Nat)
  | ensureLive (container : Nat)
  | newCell (isAsync : Bool)
  | getValue (isAsync : Bool) (cell : Nat)
  /-- Asks a cell for its instance. The creator logs a line, and may begin the disposal of the
  container. -/
  | getOrCreate (cell container : Nat) (value : String) (hook? : Option Hook) (disposes : Bool)
  /-- Runs tasks on a cell. -/
  | join (cell : Nat) (tasks : List Task)
  /-- Hands out the hook of a cell. -/
  | takeHook (isAsync : Bool) (cell : Nat)
  /-- Hands out a hook of its own. -/
  | newHook (hook : Hook)
  /-- Runs a hook where nothing can wait. -/
  | runHook (hook : Nat)
  /-- Runs a hook and waits for it. -/
  | awaitHook (hook : Nat)
  | newRegistry
  | push (registry : Nat) (hook : Hook)
  | size (registry : Nat)
  | drain (isAsync : Bool) (registry : Nat)
  | newOwned (isAsync : Bool) (value : String) (hooks : Registry)
  | inspect (isAsync : Bool) (owned : Nat)
  | dispose (isAsync : Bool) (owned : Nat)
  /-- Has a factory make a value and gives the value back. -/
  | useFactory (isAsync : Bool)

/-- The answer to a command. -/
inductive Answer where
  | nothing
  | name (text : String)
  | flag (value : Bool)
  | count (number : Nat)
  /-- How many hooks a registry has. -/
  | size (number : Nat)
  | value (text? : Option String)
  | live (result : Except ObjectDisposed Unit)
  /-- What a cell gave, and what its creator was told if it ran and began the disposal. -/
  | obtained (result : Except ObjectDisposed String) (told? : Option Bool)
  | joined (outcomes : List Outcome) (rounds : Nat)
  | hook (hook? : Option Hook)
  /-- Whether the hook was given back because it has to be waited for, if there was one. -/
  | ran (givenBack? : Option Bool)
  /-- Whether there was a hook to wait for. -/
  | awaited (found : Bool)
  | contents (value : String) (isDisposed : Bool)

namespace Store

/-- No objects. -/
def empty : Store := {}

/-- The cells of a kind. -/
def cellsOf (s : Store) (isAsync : Bool) : List (Cell String) :=
  if isAsync then s.asyncCells else s.cells

/-- Replaces the cells of a kind. -/
def withCells (s : Store) (isAsync : Bool) (cells : List (Cell String)) : Store :=
  if isAsync then { s with asyncCells := cells } else { s with cells }

/-- Does deeds, with all that follows from them. -/
def perform (s : Store) (deeds : List Deed) : Store := { s with ledger := s.ledger.after deeds }

/-- Hands out a hook, or that there is none. -/
def hand (s : Store) (hook? : Option Hook) : Answer × Store :=
  (.hook hook?, { s with handed := s.handed ++ [hook?] })

/-- The hook handed out under a number, unless it has run. -/
def handed? (s : Store) (hook : Nat) : Option Hook := (s.handed[hook]?).join

/-- Runs a hook handed out under a number. -/
def runHanded (s : Store) (number : Nat) (hook : Hook) : Store :=
  { s with handed := s.handed.set number none }.perform [.run hook]

/-- What the creator of a cell does: it logs a line and may begin the disposal of a container. What it
is told then stands beside the objects. -/
def create (container : Nat) (value : String) (hook? : Option Hook) (disposes : Bool) :
    Option Bool × Store → (String × Option Hook) × Option Bool × Store
  | (_, s) => ((value, hook?), Container.toldCreator s.containers container disposes, { s with
      containers := Container.afterCreation s.containers container disposes
      ledger := s.ledger.log ("create " ++ value) })

/-- The lines logged when a factory makes a value and the value is given back. A factory that does
not say how drops it. -/
def factoryLines : (isAsync : Bool) → List String
  | false => ["create", "hold", "drop sync", "released"]
  | true => ["create_async", "hold", "drop async", "released"]

/-- Carries out a command: what it answers and the objects after it. There is no answer where the
command names an object that has not been made. -/
def step (s : Store) : Command → Option (Answer × Store)
  | .newContainer name =>
      some (.name name, { s with containers := s.containers ++ [⟨name, false⟩] })
  | .beginDisposal container => do
      let (first, disposed) := (← s.containers[container]?).begin
      return (.flag first, { s with containers := s.containers.set container disposed })
  | .isDisposed container => do return (.flag (← s.containers[container]?).isDisposed, s)
  | .ensureLive container => do return (.live (← s.containers[container]?).ensureLive, s)
  | .newCell isAsync => some (.nothing, s.withCells isAsync (s.cellsOf isAsync ++ [{}]))
  | .getValue isAsync cell => do return (.value (← (s.cellsOf isAsync)[cell]?).value?, s)
  | .getOrCreate cell container value hook? disposes => do
      let (result, filled, told?, s) := (← s.cells[cell]?).getOrCreate (← s.containers[container]?)
        (create container value hook? disposes) (none, s)
      return (.obtained result told?, { s with cells := s.cells.set cell filled })
  | .join cell tasks => do
      guard (tasks.all fun task => task.container < s.containers.length)
      let floor : Floor := ⟨s.containers, ← s.asyncCells[cell]?, [], s.ledger.lines⟩
      let (outcomes, rounds, floor) := floor.join tasks
      return (.joined outcomes rounds, { s with
        containers := floor.containers
        asyncCells := s.asyncCells.set cell floor.cell
        ledger := { s.ledger with lines := floor.lines } })
  | .takeHook isAsync cell => do
      let (hook?, emptied) := (← (s.cellsOf isAsync)[cell]?).takeHook
      return (s.withCells isAsync ((s.cellsOf isAsync).set cell emptied)).hand hook?
  | .newHook hook => some (s.hand (some hook))
  | .runHook number =>
      match s.handed? number with
      | none => some (.ran none, s)
      | some hook =>
          if hook.isAsync then some (.ran (some true), s)
          else some (.ran (some false), s.runHanded number hook)
  | .awaitHook number =>
      match s.handed? number with
      | none => some (.awaited false, s)
      | some hook => some (.awaited true, s.runHanded number hook)
  | .newRegistry => some (.nothing, s.perform [.newRegistry])
  | .push registry hook =>
      let s := s.perform [.push registry hook]
      some (.count (s.ledger.registry registry).length, s)
  | .size registry => some (.size (s.ledger.registry registry).length, s)
  | .drain isAsync registry =>
      let s := s.perform [.drain isAsync registry]
      some (.count (s.ledger.registry registry).length, s)
  | .newOwned isAsync value hooks => some (.nothing, s.perform [.newOwned isAsync value hooks])
  | .inspect isAsync owned => do
      let o ← (s.ledger.ownedOf isAsync)[owned]?
      return (.contents o.value o.isDisposed, s)
  | .dispose isAsync owned => do
      let s := s.perform [.dispose isAsync owned]
      return (.flag (← (s.ledger.ownedOf isAsync)[owned]?).isDisposed, s)
  | .useFactory isAsync =>
      some (.nothing, { s with ledger := (factoryLines isAsync).foldl Ledger.log s.ledger })

/-- Carries out a command. The lines that it logs stand beside the answer. -/
def run (s : Store) (command : Command) : Option (Answer × List String × Store) := do
  let (answer, s) ← { s with ledger := { s.ledger with lines := [] } }.step command
  return (answer, s.ledger.lines, s)

end Store

end Wiring.Lifecycle
