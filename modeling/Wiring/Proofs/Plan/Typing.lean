import Wiring.Proofs.Plan.Values

/-!
# Arguments in their places

What a creation takes, place by place: the parameters of a constructor, function or decorator in the
order of their declaration, the one value that a factory or a forwarding takes, the items of an array.

* `Provider.slots` — those places, with their types.
* `Plan.Declares` — a variable of a plan, or of a plan around, has a type.
* `Plan.Fills` — an argument that a place may have.
-/

namespace Wiring

/-- A place for an argument: the type it takes, and whether it may stay empty. -/
structure Slot where
  ty : Ty
  /-- Whether it may stay empty. -/
  optional : Bool
  deriving DecidableEq, Inhabited

/-- The place that a parameter makes. -/
def Slot.ofParam (param : Parameter) : Slot := ⟨param.ty, param.optional⟩

/-- The place for the value of a provider. -/
def Slot.ofProvider (p : Provider) : Slot := ⟨p.ty, false⟩

/-- The places for arguments in the creation of a provider's value. The decorated parameter takes the
value that is wrapped. -/
def Provider.slots : Provider → List Slot
  | .construct _ rule => rule.constructor.params.map Slot.ofParam
  | .call _ rule => rule.method.params.map Slot.ofParam
  | .decorated _ decorator inner => decorator.method.params.map fun param =>
      if param.ordinal = decorator.slot then .ofProvider inner else .ofParam param
  | .factory _ _ maker _ _ => [.ofProvider maker]
  | .forwarded _ inner => [.ofProvider inner]
  | .array _ _ items => items.map Slot.ofProvider
  | .delegate .. | .parameter .. | .held _ | .owned .. => []

/-- A step of the plan or of a plan around declares the variable with the type, or it is a delegate's
parameter of that type. `env` is where the dependencies are resolved. -/
inductive Plan.Declares (env : Environment) (around : List (Plan × Step)) (plan : Plan) (v : String)
    (ty : Ty) : Prop
  | here (h : ⟨v, ty⟩ ∈ plan.declarations)
  | around {level : Plan × Step} (hlevel : level ∈ around) (h : ⟨v, ty⟩ ∈ level.1.declarations)
  | parameter {param : Parameter} {depth : Nat}
      (hlookup : env.lookup ty = some (.parameter param v depth)) (hty : param.ty = ty)

/-- An argument fills its place. It is absent only where the place may stay empty and the environment
has no source for its type. Else it is a variable of just the type of the place; no step of the whole
tree declares that variable otherwise, or puts a task into it. -/
inductive Plan.Fills (env : Environment) (root : Plan) (around : List (Plan × Step)) (plan : Plan)
    (slot : Slot) : Option String → Prop
  | leftOut (hoptional : slot.optional = true) (hlookup : env.lookup slot.ty = none) :
      Fills env root around plan slot none
  | filled {v : String} (hdeclares : plan.Declares env around v slot.ty)
      (hvalue : ∀ step ∈ root.tree, step.statement.assigned? = some v →
        step.statement.declaration? = some ⟨v, slot.ty⟩ ∧ step.statement.givesTask = false) :
      Fills env root around plan slot (some v)

end Wiring
