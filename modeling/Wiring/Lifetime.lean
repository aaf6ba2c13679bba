/-!
# Lifetimes and release

How often a provider is asked to produce its value, and how the value is released again.
-/

namespace Wiring

/-- How long a produced value is shared: by the whole container, by one resolution, or not at all. -/
inductive Lifetime where
  /-- One value for the container, created on first use behind a lock. -/
  | single
  /-- One value for each root resolution. -/
  | resolution
  /-- A new value at every use. -/
  | dependency
  deriving DecidableEq, Inhabited, Ord

namespace Lifetime

/-- The lifetime of a provider that declares none. -/
def standard : Lifetime := .resolution

/-- Whether a value already obtained may be used again. -/
def isShared : Lifetime → Bool
  | .dependency => false
  | .single | .resolution => true

/-- The written name of a lifetime. -/
def text : Lifetime → String
  | .single => "SingleInstance"
  | .resolution => "InstancePerResolution"
  | .dependency => "InstancePerDependency"

instance : ToString Lifetime := ⟨text⟩

end Lifetime

/-- Which ways of being released a value offers. -/
inductive Disposability where
  | none
  | sync
  | async
  /-- Either way; the style of the enclosing scope decides. -/
  | both
  deriving DecidableEq, Inhabited

namespace Disposability

/-- Whether there is anything to release. -/
def isDisposable : Disposability → Bool
  | .none => false
  | .sync | .async | .both => true

/-- Whether the release suspends in a scope of the given style. What can be released either way follows
the style. -/
def isAsync (asyncStyle : Bool) : Disposability → Bool
  | .none | .sync => false
  | .async => true
  | .both => asyncStyle

end Disposability

end Wiring
