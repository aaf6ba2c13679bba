import Wiring.Environment

/-!
# Declaring a container

`Declarations` gathers providers and decorators in order. The order counts: it is the order of the
items of arrays, and of decorators, the first of which is innermost. `Declarations.build` makes the
environment of the container.
-/

namespace Wiring

/-- What may be asked of a declared provider. -/
structure Options where
  /-- Run the initialization hook after construction. -/
  initialized : Bool := false
  /-- Construction suspends; for a constructor, its initialization hook does. -/
  isAsync : Bool := false
  disposability : Disposability := .none
  /-- Further types under which the provider is exposed. -/
  exposedAs : List Ty := []
  deriving DecidableEq, Inhabited

/-- The declarations of a container. -/
structure Declarations where
  providers : List Provider := []
  templates : List FactoryCall := []
  decorators : List Decorator := []
  /-- The number of sites used up. -/
  sites : Nat := 0
  deriving Inhabited

namespace Declarations

/-- The number of declarations. -/
def size (ds : Declarations) : Nat :=
  ds.providers.length + ds.templates.length + ds.decorators.length

/-- Whether nothing was declared. -/
def isEmpty (ds : Declarations) : Bool :=
  ds.size == 0

/-- Adds a provider, and exposes it under further types. -/
def declare (ds : Declarations) (p : Provider) (exposedAs : List Ty) : Declarations :=
  { ds with providers := ds.providers ++ p :: exposedAs.map p.exposeAs }

/-- A site that was not used before. -/
def newSite (ds : Declarations) : Declarations × Nat :=
  ({ ds with sites := ds.sites + 1 }, ds.sites)

/-- Declares the constructor of a type. Constructors cannot suspend, so an asynchronous one is
initialized, by a hook that does. -/
def addConstructor (ds : Declarations) (constructor : Method) (lifetime : Lifetime)
    (options : Options) : Declarations :=
  let (ds, site) := ds.newSite
  ds.declare (.construct (some site)
    { ty := constructor.owner
      lifetime
      constructor
      initialized := options.initialized || options.isAsync
      isAsync := options.isAsync
      disposability := options.disposability }) options.exposedAs

/-- Declares a factory object and the type it creates. The object itself is neither initialized nor
released. -/
def addFactory (ds : Declarations) (constructor : Method) (makerLifetime : Lifetime) (product : Ty)
    (lifetime : Lifetime) (options : Options) : Declarations :=
  let (ds, makerSite) := ds.newSite
  let maker := .construct (some makerSite)
    { ty := constructor.owner
      lifetime := makerLifetime
      constructor
      initialized := false
      isAsync := false
      disposability := .none }
  let (ds, site) := (ds.declare maker []).newSite
  ds.declare (.factory (some site) product maker lifetime options.isAsync) options.exposedAs

/-- Declares a factory function. One with open type arguments is a template and is not exposed under
further types. -/
def addFunction (ds : Declarations) (method : Method) (lifetime : Lifetime) (options : Options) :
    Declarations :=
  let rule : FactoryCall :=
    { method
      product := method.result
      lifetime
      isTemplate := method.isTemplate
      isAsync := options.isAsync
      disposability := options.disposability }
  if method.isTemplate then { ds with templates := ds.templates ++ [rule] }
  else
    let (ds, site) := ds.newSite
    ds.declare (.call (some site) rule) options.exposedAs

/-- Declares a value that the container holds. -/
def addMember (ds : Declarations) (member : Member) : Declarations :=
  ds.declare (.held member) []

/-- Declares a provider given in full. -/
def addProvider (ds : Declarations) (p : Provider) : Declarations :=
  let (p, sites) := p.placeAt ds.sites
  { ds with sites }.declare p []

/-- Declares a decorator. -/
def addDecorator (ds : Declarations) (decorator : Decorator) : Declarations :=
  { ds with decorators := ds.decorators ++ [decorator] }

/-- The environment of the container. -/
def build (ds : Declarations) : Environment :=
  .ofCatalog (.ofDeclarations ds.providers ds.templates ds.decorators)

end Declarations

end Wiring
