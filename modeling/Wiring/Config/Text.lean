import Wiring.PlanningRun
import Wiring.Config.Characters

/-!
# Settings from texts

Settings as a person writes them, in an option or in an environment variable: blanks around a value
and the case of ASCII letters do not matter, and a scheduler has a short name beside its full one.

The variables of a program are named after it, in capitals. A variable that is not set leaves its
setting as it is; of two invalid ones the scheduler is reported.
-/

namespace Wiring

/-- A setting whose value was not understood. The value stands as it was written. -/
inductive InvalidSetting where
  | scheduler (value : String)
  | maxDepth (value : String)
  deriving DecidableEq, Inhabited

/-- What is wrong with a setting. -/
def InvalidSetting.message : InvalidSetting → String
  | .scheduler value => "Invalid value '" ++ value ++ "' for scheduler"
  | .maxDepth value => "Invalid value '" ++ value ++ "' for max_depth"

/-- The scheduler that a text names. -/
def Scheduler.ofText (text : String) : Except InvalidSetting Scheduler :=
  let name := (Text.trim text).map Char.toLower
  if name = "longest_suspension_chain" ∨ name = "longest" then .ok .longestChain
  else if name = "emission_order" ∨ name = "emission" then .ok .emission
  else .error (.scheduler text)

/-- The depth that a text names: digits, after a plus sign or none, for at most the largest
depth. -/
def depthOfText (text : String) : Except InvalidSetting Nat :=
  let digits := match (Text.trim text).toList with
    | '+' :: rest => rest
    | unsigned => unsigned
  if Text.isDigits digits && Text.valueOf digits ≤ largestDepth then .ok (Text.valueOf digits)
  else .error (.maxDepth text)

/-- The settings that the variables of a program give. -/
def Config.ofVariables (program : String) (value? : String → Option String) :
    Except InvalidSetting Config := do
  let name := Text.uppercase program
  let scheduler ← match value? (name ++ "_SCHEDULER") with
    | some text => Scheduler.ofText text
    | none => .ok .standard
  let maxDepth ← match value? (name ++ "_MAX_DEPTH") with
    | some text => depthOfText text
    | none => .ok standardDepth
  return { scheduler, maxDepth }

end Wiring
