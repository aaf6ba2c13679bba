import Wiring.Provider

/-!
# The catalog of a container

The catalog answers which provider satisfies a type. Declared providers come first; a type nobody
declared may still be an array, a delegate or an owned value, or match a template. Whatever is found
is wrapped by the decorators of its type.

* `Catalog.resolve` is that answer; `Resolution` keeps "nothing" apart from "several".
* `Catalog.decorate` wraps a provider, the first declared decorator innermost.
-/

namespace Wiring

/-- The answer to a request for a type. "Nothing" and "several" are told apart for the sake of
diagnostics only: neither gives a provider. -/
inductive Resolution where
  | found (provider : Provider)
  | missing
  /-- Several declared providers, or several templates, satisfy the type. -/
  | ambiguous (candidates : Nat)
  deriving Inhabited

namespace Resolution

/-- The provider, if there is exactly one. -/
def provider? : Resolution → Option Provider
  | .found provider => some provider
  | .missing | .ambiguous _ => none

/-- Applies a function to the provider found. -/
def map (f : Provider → Provider) : Resolution → Resolution
  | .found provider => .found (f provider)
  | .missing => .missing
  | .ambiguous candidates => .ambiguous candidates

/-- The answer that a list of candidates gives: there is no choice among several. -/
def ofList : List Provider → Resolution
  | [] => .missing
  | [provider] => .found provider
  | providers => .ambiguous providers.length

end Resolution

/-- What a container was declared to hold. It stays the same while the container is checked and planned.
-/
structure Catalog where
  /-- Declared providers in order, no two of one type and one identity. -/
  declared : List Provider
  /-- Factory functions with open type arguments. -/
  templates : List FactoryCall
  decorators : DecoratorIndex
  deriving Inhabited

namespace Catalog

/-- Adds a declared provider, unless one of its type and identity is there. -/
def insert (declared : List Provider) (p : Provider) : List Provider :=
  if declared.any fun q => q.ty == p.ty && q.same p then declared else declared ++ [p]

/-- The catalog of declarations in order. -/
def ofDeclarations (declared : List Provider) (templates : List FactoryCall)
    (decorators : List Decorator) : Catalog :=
  ⟨declared.foldl insert [], templates, .ofList decorators⟩

/-- The declared providers of a type, in order. -/
def declaredFor (catalog : Catalog) (ty : Ty) : List Provider :=
  catalog.declared.filter fun p => p.ty = ty

/-- The number of types with a declared provider. -/
def typeCount (catalog : Catalog) : Nat :=
  (catalog.declared.map Provider.ty).eraseDups.length

/-- Wraps a provider in every decorator of its type, the first declared innermost. -/
def decorate (catalog : Catalog) (p : Provider) : Provider :=
  if p.isDecoratable then
    (catalog.decorators.forType p.ty).foldl (fun inner decorator => .decorated none decorator inner) p
  else p

/-- A template fitted to a type, if the type it returns matches. -/
def instantiate (ty : Ty) (template : FactoryCall) : Option Provider :=
  (Ty.match? template.product ty).map fun bindings =>
    .call none { template with
      method := template.method.substitute bindings
      product := ty
      isTemplate := false }

/-- The templates fitted to a type. -/
def specialize (catalog : Catalog) (ty : Ty) : Resolution :=
  .ofList (catalog.templates.filterMap (instantiate ty))

/-- The items of an array: every declared provider of the element type or, if there is none, the one
template that fits it; each decorated as a single request would be. -/
def items (catalog : Catalog) (element : Ty) : List Provider :=
  match catalog.declaredFor element with
  | [] => ((catalog.specialize element).provider?.map catalog.decorate).toList
  | declared => declared.map catalog.decorate

/-- The parameters of a delegate type, named by position. -/
def delegateParams (params : List Ty) : List Parameter :=
  params.mapIdx fun i ty => ⟨"arg" ++ toString i, i, ty, false⟩

/-- The provider made up for a type that nobody declared: an array, a delegate and an owned value
describe themselves, anything else has to fit a template. -/
def synthesize (catalog : Catalog) : Ty → Resolution
  | .array element => .found (.array (.array element) element (catalog.items element))
  | .delegate params result isAsync =>
      .found (.delegate (.delegate params result isAsync) result (delegateParams params) isAsync)
  | .owned value isAsync => .found (.owned (.owned value isAsync) value isAsync)
  | ty => catalog.specialize ty

/-- Which provider satisfies a type: a declared one, if there is any, and otherwise one made up for it.
Several declared providers are ambiguous even where a template fits as well. -/
def resolve (catalog : Catalog) (ty : Ty) : Resolution :=
  match catalog.declaredFor ty with
  | [] => (catalog.synthesize ty).map catalog.decorate
  | declared => (Resolution.ofList declared).map catalog.decorate

end Catalog

end Wiring
