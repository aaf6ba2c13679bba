import Wiring.Catalog

/-!
# Environments

An `Environment` is the catalog of a container seen from inside a nest of delegate and owned bodies.
Each delegate entered puts a frame with its parameters on top; an owned body puts an empty frame
there. A singleton never sees the delegates around it, so entering one drops every frame.

`Environment.requests` lists the dependencies of a provider, each with the provider that satisfies
it. Every analysis, the checker and the planner walk the graph along these edges.
-/

namespace Wiring

/-- The parameters that a delegate body brings into scope, each type once. -/
abbrev Frame := List (Ty × Provider)

namespace Frame

/-- Binds the parameter at position `index` of a delegate at the given depth, unless a parameter of
its type is bound already. -/
def bind (depth : Nat) (frame : Frame) (index : Nat) (param : Parameter) : Frame :=
  if frame.any fun entry => entry.1 = param.ty then frame
  else frame ++
    [(param.ty, .parameter param ("param" ++ toString depth ++ "_" ++ toString index) depth)]

/-- The frame of a delegate at the given depth: of several parameters of one type the first is
bound. -/
def ofParams (depth : Nat) (params : List Parameter) : Frame :=
  params.zipIdx.foldl (fun frame entry => bind depth frame entry.2 entry.1) []

/-- The parameter of a type. -/
def find? (frame : Frame) (ty : Ty) : Option Provider :=
  (List.find? (fun entry => entry.1 = ty) frame).map (·.2)

end Frame

/-- A dependency: the type asked for and the provider that satisfies it, if any. -/
structure Request where
  ty : Ty
  optional : Bool
  provider? : Option Provider

/-- What is in scope: the declarations of the container, and the parameters of the bodies around. -/
structure Environment where
  catalog : Catalog
  /-- The frames of the bodies around, innermost first. -/
  frames : List Frame
  deriving Inhabited

namespace Environment

/-- The environment of the container itself. -/
def ofCatalog (catalog : Catalog) : Environment := ⟨catalog, []⟩

/-- How many bodies are around. -/
def depth (env : Environment) : Nat := env.frames.length

/-- Whether no body is around. -/
def isContainer (env : Environment) : Bool := env.frames.isEmpty

/-- The environment of the container. -/
def root (env : Environment) : Environment := ofCatalog env.catalog

/-- Which provider satisfies a type: the parameter of the innermost body that has one, else what the
catalog says. -/
def resolve (env : Environment) (ty : Ty) : Resolution :=
  match env.frames.findSome? fun frame => frame.find? ty with
  | some provider => .found provider
  | none => env.catalog.resolve ty

/-- The provider of a type, if there is exactly one. -/
def lookup (env : Environment) (ty : Ty) : Option Provider :=
  (env.resolve ty).provider?

/-- Puts a frame on top. -/
def push (frame : Frame) (env : Environment) : Environment :=
  { env with frames := frame :: env.frames }

/-- The environment in which the dependencies of a provider are resolved. A body gets a frame of its
own, which for an owned value is empty; a singleton forgets every frame. -/
def enter (env : Environment) (p : Provider) : Environment :=
  match p with
  | .delegate _ _ params _ => env.push (.ofParams (env.depth + 1) params)
  | .owned .. => env.push []
  | _ => if p.lifetime = .single then env.root else env

/-- Whether two environments of one container are the same. Entering adds frames or drops them all,
so of an environment and one entered from it the depth tells. -/
def sameDepth (a b : Environment) : Bool := a.depth == b.depth

/-- The text of an environment: its depth, what its innermost frame binds, and the number of types
declared in the container. -/
def text (env : Environment) : String :=
  "Environment \x7b depth: " ++ toString env.depth ++
    ", bindings: " ++ toString (env.frames.headD []).length ++
    ", declared_types: " ++ toString env.catalog.typeCount ++ " \x7d"

instance : ToString Environment := ⟨text⟩

/-! ### Dependencies -/

/-- The request of a required type. -/
def request (env : Environment) (ty : Ty) : Request :=
  ⟨ty, false, env.lookup ty⟩

/-- The request of a parameter. -/
def paramRequest (env : Environment) (param : Parameter) : Request :=
  ⟨param.ty, param.optional, env.lookup param.ty⟩

/-- The request of a decorator's parameter: the decorated one asks for what is wrapped. -/
def decoratorRequest (env : Environment) (decorator : Decorator) (inner : Provider)
    (param : Parameter) : Request :=
  if param.ordinal = decorator.slot then ⟨param.ty, param.optional, some inner⟩
  else env.paramRequest param

/-- The request of a provider already at hand. -/
def given (p : Provider) : Request :=
  ⟨p.ty, false, some p⟩

/-- The dependencies of a provider in the environment of its body, in order. -/
def requests (env : Environment) : Provider → List Request
  | .construct _ rule => rule.constructor.params.map env.paramRequest
  | .call _ rule => rule.method.params.map env.paramRequest
  | .decorated _ decorator inner => decorator.method.params.map (env.decoratorRequest decorator inner)
  | .factory _ _ maker _ _ => [given maker]
  | .forwarded _ inner => [given inner]
  | .delegate _ result _ _ => [env.request result]
  | .owned _ value _ => [env.request value]
  | .array _ _ items => items.map given
  | .parameter .. | .held _ => []

end Environment

end Wiring
