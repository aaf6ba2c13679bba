import Wiring.Decorator

/-!
# Providers

A `Provider` is a rule for obtaining a value of some type. Most are declared; arrays, delegates,
owned values, decorated providers and specialised templates are made up when a type is looked up.

Two notions of sameness matter, and neither is structural equality.

* **Identity** (`Provider.identity`): what memoization goes by. Two providers of one identity yield
  one value wherever values are shared. It leaves out how a value is initialised or released.
* **Site** (`Provider.site?`): the place of a declaration. A provider made up on lookup has none.
-/

namespace Wiring

/-- A value built by a constructor. -/
structure Construction where
  ty : Ty
  lifetime : Lifetime
  constructor : Method
  /-- Whether the initialization hook runs after construction. -/
  initialized : Bool
  /-- Whether that hook suspends. -/
  isAsync : Bool
  disposability : Disposability
  deriving DecidableEq, Inhabited

/-- A value returned by a factory function. -/
structure FactoryCall where
  method : Method
  /-- The type provided. -/
  product : Ty
  lifetime : Lifetime
  /-- Whether the function is a template, still to be specialised. -/
  isTemplate : Bool
  isAsync : Bool
  disposability : Disposability
  deriving DecidableEq, Inhabited

/-- A rule for obtaining a value: what is created, from what, and what it is shared with. -/
inductive Provider where
  | construct (site : Option Nat) (rule : Construction)
  /-- Created by the factory object that `maker` provides, and handed back to it on release. -/
  | factory (site : Option Nat) (product : Ty) (maker : Provider) (lifetime : Lifetime)
      (isAsync : Bool)
  /-- A callable whose body produces `result` from `params`. -/
  | delegate (ty result : Ty) (params : List Parameter) (isAsync : Bool)
  /-- A parameter of an enclosing delegate. -/
  | parameter (param : Parameter) (name : String) (depth : Nat)
  | call (site : Option Nat) (rule : FactoryCall)
  /-- A value the container holds already. -/
  | held (member : Member)
  /-- Every provider of an element type. -/
  | array (ty element : Ty) (items : List Provider)
  | decorated (site : Option Nat) (decorator : Decorator) (inner : Provider)
  /-- The value of `inner`, exposed as another type. -/
  | forwarded (ty : Ty) (inner : Provider)
  /-- A value packaged with the hook that releases it. -/
  | owned (ty value : Ty) (isAsync : Bool)
  deriving Inhabited

namespace Provider

/-- The type whose values are provided. -/
def ty : Provider → Ty
  | .construct _ rule => rule.ty
  | .factory _ product _ _ _ => product
  | .delegate ty _ _ _ => ty
  | .parameter param _ _ => param.ty
  | .call _ rule => rule.product
  | .held member => member.ty
  | .array ty _ _ => ty
  | .decorated _ decorator _ => decorator.decorated
  | .forwarded ty _ => ty
  | .owned ty _ _ => ty

/-- How long the value is shared. A wrapper shares as long as what it wraps. -/
def lifetime : Provider → Lifetime
  | .construct _ rule => rule.lifetime
  | .factory _ _ _ lifetime _ => lifetime
  | .call _ rule => rule.lifetime
  | .delegate .. | .parameter .. => .resolution
  | .held _ => .single
  | .array .. | .owned .. => .dependency
  | .decorated _ _ inner | .forwarded _ inner => inner.lifetime

/-- Whether producing the value itself suspends; what it depends on is not considered. -/
def isAsync : Provider → Bool
  | .construct _ rule => rule.isAsync
  | .factory _ _ _ _ isAsync => isAsync
  | .delegate _ _ _ isAsync => isAsync
  | .call _ rule => rule.isAsync
  | .owned _ _ isAsync => isAsync
  | .decorated _ decorator _ => decorator.isAsync
  | .parameter .. | .held _ | .array .. | .forwarded .. => false

/-- Whether decorators may wrap the value. Parameters of delegates are passed on untouched. -/
def isDecoratable : Provider → Bool
  | .parameter .. => false
  | .factory _ _ maker _ _ => maker.isDecoratable
  | .forwarded _ inner => inner.isDecoratable
  | _ => true

/-- Whether a hook runs after construction. -/
def isInitialized : Provider → Bool
  | .construct _ rule => rule.initialized
  | .decorated _ decorator _ => decorator.isInitialized
  | _ => false

/-- Whether it is a delegate. -/
def isDelegate : Provider → Bool
  | .delegate .. => true
  | _ => false

/-- Where the provider was declared, if it was. -/
def site? : Provider → Option Nat
  | .construct site _ | .factory site _ _ _ _ | .call site _ | .decorated site _ _ => site
  | _ => none

/-- Whether two providers are one declaration. -/
def sameSite (a b : Provider) : Bool :=
  a.site?.isSome && a.site? == b.site?

/-- Exposes a provider as another type. A provider of that type already stays as it is, and a
forwarded one is replaced by what it forwards to, so forwarding never chains. -/
def exposeAs (ty : Ty) (p : Provider) : Provider :=
  if p.ty = ty then p
  else match p with
    | .forwarded _ inner => .forwarded ty inner
    | _ => .forwarded ty p

/-! ### Identity -/

/-- What memoization tells providers apart by. Two providers of one identity share their value, in a
plan or in the container. -/
inductive Identity where
  | construct (ty : Ty) (lifetime : Lifetime)
  | factory (product : Ty) (lifetime : Lifetime)
  | delegate (ty : Ty)
  | parameter (param : Parameter) (name : String) (depth : Nat)
  | call (method : Method) (lifetime : Lifetime)
  | held (member : Member)
  | array (ty : Ty)
  | decorated (decorator : Decorator) (inner : Identity)
  | forwarded (ty : Ty) (inner : Identity)
  | owned (ty : Ty)
  deriving DecidableEq, Inhabited

/-- The identity of a provider. It leaves out what does not count for sharing, so that providers of one
identity need not be the same. -/
def identity : Provider → Identity
  | .construct _ rule => .construct rule.ty rule.lifetime
  | .factory _ product _ lifetime _ => .factory product lifetime
  | .delegate ty _ _ _ => .delegate ty
  | .parameter param name depth => .parameter param name depth
  | .call _ rule => .call rule.method rule.lifetime
  | .held member => .held member
  | .array ty _ _ => .array ty
  | .decorated _ decorator inner => .decorated decorator inner.identity
  | .forwarded ty inner => .forwarded ty inner.identity
  | .owned ty _ _ => .owned ty

/-- How long the value of a provider with this identity is shared. -/
def Identity.lifetime : Identity → Lifetime
  | .construct _ lifetime | .factory _ lifetime | .call _ lifetime => lifetime
  | .delegate _ | .parameter .. => .resolution
  | .held _ => .single
  | .array _ | .owned _ => .dependency
  | .decorated _ inner | .forwarded _ inner => inner.lifetime

/-- Providers of one identity share their values equally long. -/
theorem lifetime_identity (p : Provider) : p.identity.lifetime = p.lifetime := by
  fun_induction identity p <;> simp_all [Identity.lifetime, lifetime]

/-- Whether memoization takes two providers for one. -/
def same (a b : Provider) : Bool :=
  a.identity == b.identity

/-! ### Sites -/

mutual

/-- Gives every rule of a provider a site of its own, counting from `next`. The answer holds the
first number left over. -/
def placeAt (next : Nat) : Provider → Provider × Nat
  | .construct _ rule => (.construct (some next) rule, next + 1)
  | .factory _ product maker lifetime isAsync =>
      let (maker, left) := placeAt (next + 1) maker
      (.factory (some next) product maker lifetime isAsync, left)
  | .call _ rule => (.call (some next) rule, next + 1)
  | .decorated _ decorator inner =>
      let (inner, left) := placeAt (next + 1) inner
      (.decorated (some next) decorator inner, left)
  | .forwarded ty inner =>
      let (inner, left) := placeAt next inner
      (.forwarded ty inner, left)
  | .array ty element items =>
      let (items, left) := placeAllAt next items
      (.array ty element items, left)
  | p => (p, next)

/-- Gives every rule of several providers a site of its own, counting from `next`. -/
def placeAllAt (next : Nat) : List Provider → List Provider × Nat
  | [] => ([], next)
  | p :: ps =>
      let (p, left) := placeAt next p
      let (ps, left) := placeAllAt left ps
      (p :: ps, left)

end

/-! ### Text -/

/-- The name of a provider's kind. -/
def kind : Provider → String
  | .construct .. => "Registration"
  | .factory .. => "Factory"
  | .delegate .. => "Delegate"
  | .parameter .. => "DelegateParameter"
  | .call .. => "FactoryMethod"
  | .held _ => "Instance"
  | .array .. => "Array"
  | .decorated .. => "Decorated"
  | .forwarded .. => "Forwarded"
  | .owned .. => "Owned"

/-- A provider as diagnostics and plans write it. -/
def text : Provider → String
  | .construct _ rule => rule.constructor.text ++ " [" ++ rule.lifetime.text ++ "]"
  | .factory _ product maker _ _ => product.text ++ " via factory " ++ maker.ty.text
  | .call _ rule => rule.method.text ++ " [" ++ rule.lifetime.text ++ "]"
  | .held member => member.text
  | .parameter param name _ => name ++ ": " ++ param.ty.text
  | .decorated _ decorator inner => decorator.text ++ " decorating " ++ inner.text
  | .forwarded ty inner => inner.text ++ " as " ++ ty.text
  | p => p.kind ++ " " ++ p.ty.text

instance : ToString Provider := ⟨text⟩

end Provider

end Wiring
