import Wiring.PlanningRun
import Wiring.Config.JsonText

/-!
# Settings as JSON

Settings are an object with a field for each, or an array with their values in order. What is not
there keeps its standard value. Fields of other names are passed over; a field may not occur twice,
and an array may not have more values than there are settings.
-/

namespace Wiring

/-- The scheduler of a name, written in full. -/
def Scheduler.ofName? (name : String) : Option Scheduler :=
  [Scheduler.longestChain, .emission].find? (·.name = name)

/-- The scheduler that a value stands for: its name, or an object whose only key is its name, with
`null`. -/
def Scheduler.ofJson? : Json → Option Scheduler
  | .text (some name) => Scheduler.ofName? name
  | .object [(some name, .null)] => Scheduler.ofName? name
  | _ => none

/-- The depth that a value stands for. -/
def depthOfJson? : Json → Option Nat
  | .number (.natural depth) => if depth ≤ largestDepth then some depth else none
  | _ => none

namespace Config

/-- The values of all fields of a name. -/
def valuesOf (name : String) (entries : List (Json.Text × Json)) : List Json :=
  entries.filterMap fun (key, value) => if key = some name then some value else none

/-- The setting that the values given for it stand for: its standard value if there is none, and
nothing if there is more than one. -/
def setting? {α : Type} (read : Json → Option α) (standard : α) : List Json → Option α
  | [] => some standard
  | [value] => read value
  | _ => none

/-- The settings that a value stands for. -/
def ofJson? : Json → Option Config
  | .array items => do
      let scheduler ← setting? Scheduler.ofJson? .standard (items.take 1)
      let maxDepth ← setting? depthOfJson? standardDepth (items.drop 1)
      return { scheduler, maxDepth }
  | .object entries =>
      if entries.all (·.1.isSome) then do
        let scheduler ← setting? Scheduler.ofJson? .standard (valuesOf "scheduler" entries)
        let maxDepth ← setting? depthOfJson? standardDepth (valuesOf "max_depth" entries)
        return { scheduler, maxDepth }
      else none
  | _ => none

/-- The settings that a JSON text stands for. -/
def ofJsonText? (text : String) : Option Config := do
  ofJson? (← Json.ofText? text)

/-- The value that stands for settings. -/
def toJson (c : Config) : Json :=
  .object [
    (some "scheduler", .text (some c.scheduler.name)),
    (some "max_depth", .number (.natural c.maxDepth))]

/-- Settings written as a value are read back. -/
theorem ofJson?_toJson (c : Config) (h : c.maxDepth ≤ largestDepth) :
    ofJson? c.toJson = some c := by
  obtain ⟨scheduler, maxDepth⟩ := c
  cases scheduler <;>
    simp [toJson, ofJson?, valuesOf, setting?, Scheduler.ofJson?, Scheduler.ofName?, depthOfJson?,
      Scheduler.name, h]

end Config

end Wiring
