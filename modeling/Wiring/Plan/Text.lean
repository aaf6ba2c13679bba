import Wiring.Plan.Basic

/-!
# Written plans

A plan is written one statement a line, then its releases, then the variable it returns.
-/

namespace Wiring

/-- A release as it is written. -/
def Release.text (release : Release) : String :=
  let suffix := if release.isAsync then "_async" else ""
  match release with
  | .dispose name _ => name ++ ".dispose" ++ suffix ++ "()"
  | .giveBack name maker _ => maker ++ ".release" ++ suffix ++ "(" ++ name ++ ")"
  | .drain registry _ => registry ++ ".drain" ++ suffix ++ "()"

instance : ToString Release := ⟨Release.text⟩

namespace Statement

/-- The arguments of a creation; one left out is an underscore. -/
def argsText (args : List (Option String)) : String :=
  ", ".intercalate (args.map fun arg => arg.getD "_")

/-- The expression that creates a provider's value. -/
def creationText (provider : Provider) (args : List (Option String)) : String :=
  match provider with
  | .construct _ rule => rule.ty.text ++ "::new(" ++ argsText args ++ ")"
  | .call _ rule => rule.method.owner.text ++ "." ++ rule.method.name ++ "(" ++ argsText args ++ ")"
  | .factory .. => "create(" ++ argsText args ++ ")"
  | .decorated _ decorator _ =>
      match decorator.kind with
      | .construction ty _ => ty.text ++ "::new(" ++ argsText args ++ ")"
      | .function =>
          decorator.method.owner.text ++ "." ++ decorator.method.name ++ "(" ++ argsText args ++ ")"
  | .array _ element _ => "[" ++ element.text ++ "; " ++ argsText args ++ "]"
  | .held member => member.text
  | .forwarded ty _ => "(" ++ ty.text ++ " as " ++ argsText args ++ ")"
  | .delegate .. | .parameter .. | .owned .. => provider.kind ++ "(" ++ argsText args ++ ")"

/-- A statement as it is written. -/
def text : Statement → String
  | .single name provider isAsync =>
      name ++ " = single_instance" ++ (if isAsync then "_async" else "") ++
        "<" ++ provider.ty.text ++ ">()"
  | .delegate name provider body _ =>
      name ++ " = " ++ provider.ty.text ++ " \x7b " ++ toString body.size ++ " ops -> " ++
        body.target ++ " \x7d"
  | .registry name _ => name ++ " = DisposeActions::new()"
  | .ownedFunction function provider _ body =>
      "fn " ++ function ++ "() -> " ++ provider.ty.text ++ " \x7b " ++ toString body.size ++
        " ops \x7d"
  | .owned name _ _ function => name ++ " = " ++ function ++ "()"
  | .create name provider args => name ++ " = " ++ creationText provider args
  | .start (some task) name _ => task ++ " = " ++ name ++ ".initialize_async()"
  | .start none name _ => name ++ ".initialize()"
  | .await (some name) task _ => name ++ " = await " ++ task
  | .await none task _ => "await " ++ task

instance : ToString Statement := ⟨text⟩

end Statement

namespace Plan

/-- A plan as it is written. -/
def text (plan : Plan) : String :=
  let statements := plan.steps.map fun step => step.statement.text ++ "\n"
  let releases := plan.releaseOrder.filterMap fun step => step.release.map fun r => r.text ++ "\n"
  String.join (statements ++ releases) ++ "return " ++ plan.target

instance : ToString Plan := ⟨text⟩

end Plan

end Wiring
