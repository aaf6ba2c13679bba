import Wiring.Lifetime
import Wiring.Ty.Order
import Wiring.Ty.Text
import Wiring.Ty.Unify

/-!
# Methods, parameters and members

What providers call or read: a method with its parameters, or a member of the container that holds
a value. They are compared field by field; the order of each is that of its fields.
-/

namespace Wiring

/-- A formal parameter. An optional one may be left out when nothing provides it. -/
structure Parameter where
  name : String
  /-- Its position in the method that declares it. -/
  ordinal : Nat
  ty : Ty
  optional : Bool
  deriving DecidableEq, Inhabited

namespace Parameter

/-- Orders parameters by name, position, type and optionality. -/
def cmp (a b : Parameter) : Ordering :=
  (compare a.name b.name).then <| (compare a.ordinal b.ordinal).then <|
    (compare a.ty b.ty).then (compare a.optional b.optional)

instance : Ord Parameter := ⟨cmp⟩

/-- Replaces bound type parameters in the parameter's type. -/
def substitute (bindings : Bindings) (p : Parameter) : Parameter :=
  { p with ty := p.ty.substitute bindings }

/-- Gives each parameter its position as ordinal. -/
def number (params : List Parameter) : List Parameter :=
  params.mapIdx fun i p => { p with ordinal := i }

end Parameter

/-- How a method is called. -/
inductive MethodKind where
  | constructor
  | static
  /-- Called on the container itself. -/
  | onContainer
  deriving DecidableEq, Inhabited, Ord

/-- A constructor or a factory function. -/
structure Method where
  owner : Ty
  name : String
  kind : MethodKind
  /-- Type arguments; open ones make the method a template. -/
  typeArgs : List Ty
  params : List Parameter
  result : Ty
  deriving DecidableEq, Inhabited

namespace Method

/-- The constructor of `owner`. -/
def new (owner : Ty) (params : List Parameter) : Method :=
  ⟨owner, "new", .constructor, [], Parameter.number params, owner⟩

/-- A static factory function. -/
def function (owner : Ty) (name : String) (params : List Parameter) (result : Ty) : Method :=
  ⟨owner, name, .static, [], Parameter.number params, result⟩

/-- A factory function called on the container. -/
def onContainer (owner : Ty) (name : String) (params : List Parameter) (result : Ty) : Method :=
  { function owner name params result with kind := .onContainer }

/-- Whether a type argument is still open. -/
def isTemplate (m : Method) : Bool :=
  m.typeArgs.any Ty.isOpen

/-- The first parameter with the given ordinal. -/
def param? (m : Method) (ordinal : Nat) : Option Parameter :=
  m.params.find? fun p => p.ordinal = ordinal

/-- Replaces bound type parameters in every type of the method. -/
def substitute (bindings : Bindings) (m : Method) : Method :=
  { m with
    owner := m.owner.substitute bindings
    typeArgs := m.typeArgs.map (Ty.substitute bindings)
    params := m.params.map (Parameter.substitute bindings)
    result := m.result.substitute bindings }

/-- Orders methods by owner, name, kind, type arguments, parameters and result. -/
def cmp (a b : Method) : Ordering :=
  (compare a.owner b.owner).then <| (compare a.name b.name).then <|
    (compare a.kind b.kind).then <| (compareLists compare a.typeArgs b.typeArgs).then <|
      (compareLists compare a.params b.params).then (compare a.result b.result)

instance : Ord Method := ⟨cmp⟩

/-- A method as diagnostics and plans write it: owner, name, type arguments and the types of its
parameters. -/
def text (m : Method) : String :=
  let typeArgs := if m.typeArgs = [] then "" else "<" ++ ", ".intercalate (m.typeArgs.map Ty.text) ++ ">"
  m.owner.text ++ "." ++ m.name ++ typeArgs ++
    "(" ++ ", ".intercalate (m.params.map fun p => p.ty.text) ++ ")"

instance : ToString Method := ⟨text⟩

end Method

/-- A field or property of the container that holds a value made beforehand. -/
structure Member where
  owner : Ty
  name : String
  ty : Ty
  deriving DecidableEq, Inhabited

namespace Member

/-- Orders members by owner, name and type. -/
def cmp (a b : Member) : Ordering :=
  (compare a.owner b.owner).then <| (compare a.name b.name).then (compare a.ty b.ty)

instance : Ord Member := ⟨cmp⟩

/-- A member as it is written: owner and name. -/
def text (m : Member) : String :=
  m.owner.text ++ "." ++ m.name

instance : ToString Member := ⟨text⟩

end Member

end Wiring
