import Wiring.Callable

/-!
# Decorators

A decorator wraps the value that another provider produces. One of its parameters receives that
value; the others are resolved like any parameter. A decorator declared for an open type is a
template, which `Decorator.specialize` fits to each type it matches.
-/

namespace Wiring

/-- What kind of decorator it is: a constructed wrapper or a function. -/
inductive DecoratorKind where
  /-- A type constructed around the value. `ty` is that type; `initialized` asks for its hook to be
  run after construction. -/
  | construction (ty : Ty) (initialized : Bool)
  /-- A function applied to the value. -/
  | function
  deriving DecidableEq, Inhabited

/-- A declared decorator: it wraps what the container finds for the types its template becomes. -/
structure Decorator where
  kind : DecoratorKind
  /-- The constructor or function that is called. -/
  method : Method
  /-- The type whose values it wraps. -/
  decorated : Ty
  /-- The ordinal of the parameter that receives the wrapped value. -/
  slot : Nat
  isAsync : Bool
  /-- Whether it was declared to be released. -/
  disposes : Bool
  disposability : Disposability
  deriving DecidableEq, Inhabited

namespace Decorator

/-- A decorator type built by `constructor` around values of `decorated`. -/
def construction (constructor : Method) (decorated : Ty) (slot : Nat) : Decorator :=
  ⟨.construction constructor.owner false, constructor, decorated, slot, false, false, .none⟩

/-- A decorator function; it wraps the type it returns. -/
def function (method : Method) (slot : Nat) : Decorator :=
  ⟨.function, method, method.result, slot, false, false, .none⟩

/-- The decorator, released at the end of its scope. -/
def withDispose (disposability : Disposability) (d : Decorator) : Decorator :=
  { d with disposes := true, disposability }

/-- The decorator, with its initialization hook run. A function has no such hook. -/
def withInitialization (d : Decorator) : Decorator :=
  match d.kind with
  | .construction ty _ => { d with kind := .construction ty true }
  | .function => d

/-- The decorator, suspending. For a constructed one it is the initialization hook that suspends. -/
def withAsync (d : Decorator) : Decorator :=
  { d.withInitialization with isAsync := true }

/-- The type constructed, if it is not a function. -/
def ty? (d : Decorator) : Option Ty :=
  match d.kind with
  | .construction ty _ => some ty
  | .function => none

/-- Whether a hook runs after construction. -/
def isInitialized (d : Decorator) : Bool :=
  match d.kind with
  | .construction _ initialized => initialized
  | .function => false

/-- How the decorator itself is released: not at all, unless it was declared to be. -/
def release (d : Decorator) : Disposability :=
  if d.disposes then d.disposability else .none

/-- Whether the decorated type is a template. -/
def isTemplate (d : Decorator) : Bool :=
  d.decorated.isOpen

/-- The decorator fitted to a type, if its decorated type matches it. -/
def specialize (concrete : Ty) (d : Decorator) : Option Decorator :=
  (Ty.match? d.decorated concrete).map fun bindings =>
    { d with
      kind := match d.kind with
        | .construction ty initialized => .construction (ty.substitute bindings) initialized
        | .function => .function
      method := d.method.substitute bindings
      decorated := concrete }

/-- A decorator as diagnostics and plans write it. -/
def text (d : Decorator) : String :=
  "decorator " ++ d.method.text

instance : ToString Decorator := ⟨text⟩

end Decorator

/-! ### The index of decorators -/

/-- Decorators filed by the shape of the type they wrap. A bare parameter fits every shape, so those
templates stand apart; within a file the order of declaration is kept. -/
structure DecoratorIndex where
  /-- The decorators of each shape, in the order in which shapes first appear. -/
  shapes : List (Ty.Shape × List Decorator)
  /-- The decorators whose decorated type is a bare parameter. -/
  bare : List Decorator
  deriving Inhabited

namespace DecoratorIndex

/-- The index of no decorators. -/
def empty : DecoratorIndex := ⟨[], []⟩

/-- Adds a decorator at the end of the file of a shape, opening the file if there is none. -/
def file (shape : Ty.Shape) (d : Decorator) :
    List (Ty.Shape × List Decorator) → List (Ty.Shape × List Decorator)
  | [] => [(shape, [d])]
  | (s, filed) :: rest =>
      if s = shape then (s, filed ++ [d]) :: rest else (s, filed) :: file shape d rest

/-- Files one more decorator. -/
def insert (index : DecoratorIndex) (d : Decorator) : DecoratorIndex :=
  match d.decorated.shape with
  | .param => { index with bare := index.bare ++ [d] }
  | shape => { index with shapes := file shape d index.shapes }

/-- The index of decorators in the order of their declaration. -/
def ofList (decorators : List Decorator) : DecoratorIndex :=
  decorators.foldl insert empty

/-- Whether nothing is filed. -/
def isEmpty (index : DecoratorIndex) : Bool :=
  index.shapes.isEmpty && index.bare.isEmpty

/-- The decorators filed under a shape. -/
def ofShape (index : DecoratorIndex) (shape : Ty.Shape) : List Decorator :=
  ((index.shapes.find? fun entry => entry.1 = shape).map (·.2)).getD []

/-- The decorators that may apply to a type: those of its shape, then the bare parameters. -/
def candidates (index : DecoratorIndex) (ty : Ty) : List Decorator :=
  index.ofShape ty.shape ++ index.bare

/-- The decorators that apply to a type, fitted to it, innermost first. -/
def forType (index : DecoratorIndex) (ty : Ty) : List Decorator :=
  (index.candidates ty).filterMap (Decorator.specialize ty)

/-- Whether some decorator applies to a type. -/
def applies (index : DecoratorIndex) (ty : Ty) : Bool :=
  (index.candidates ty).any fun d => (d.specialize ty).isSome

end DecoratorIndex

/-! ### Queries -/

/-- An iteration under way: what it has yet to look through, in the order in which decorators apply. -/
structure DecoratorIteration where
  remaining : List Decorator
  ty : Ty
  deriving Inhabited

namespace DecoratorIteration

/-- The first decorator that applies to a type, fitted to it, and those behind it. -/
def firstFitting (ty : Ty) : List Decorator → Option Decorator × List Decorator
  | [] => (none, [])
  | d :: rest =>
      match d.specialize ty with
      | some fitted => (some fitted, rest)
      | none => firstFitting ty rest

/-- The next decorator that applies, if there is one, and the iteration from there on. None is fitted
before it is asked for. -/
def next (iteration : DecoratorIteration) : Option Decorator × DecoratorIteration :=
  let (found, remaining) := firstFitting iteration.ty iteration.remaining
  (found, { iteration with remaining })

/-- The decorators that the next `n` steps yield. -/
def take : Nat → DecoratorIteration → List Decorator
  | 0, _ => []
  | n + 1, iteration =>
      match iteration.next with
      | (some fitted, rest) => fitted :: take n rest
      | (none, _) => []

end DecoratorIteration

namespace DecoratorQuery

end DecoratorQuery

end Wiring
