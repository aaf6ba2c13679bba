import Wiring.Proofs.Typing

/-!
# Constructors suspend in hooks only

A constructor cannot suspend; what is asynchronous about it is the initialization hook that runs
afterwards. The functions that declare providers and build decorators see to it that there is one, so
everything found in a container declared by them is of that kind.

* `Provider.IsHooked` — a constructor suspends in its initialization hook only.
* `Decorator.Built` — a decorator as it can be built.
* `Declarations.Composed.resolve_hooked` — what resolution finds suspends in hooks only, where no
  provider was given in full and decorators are built.
-/

namespace Wiring

namespace Provider

/-- A constructor suspends in its initialization hook only, that of a decorator too. -/
def IsHooked : Provider → Prop
  | .construct _ rule => rule.isAsync = true → rule.initialized = true
  | .decorated _ decorator _ =>
      decorator.isAsync = true → decorator.kind = .function ∨ decorator.isInitialized = true
  | _ => True

/-- So do the provider and everything within it. -/
def IsHookedThroughout (p : Provider) : Prop :=
  ∀ q, p.Holds q → q.IsHooked

namespace IsHookedThroughout

variable {p q : Provider}

theorem self (h : p.IsHookedThroughout) : p.IsHooked := h p (.refl p)

theorem holds (h : p.IsHookedThroughout) (hq : p.Holds q) : q.IsHookedThroughout :=
  fun r hr => h r (hq.trans hr)

theorem of_parts (hp : p.IsHooked) (hparts : ∀ q ∈ p.parts, q.IsHookedThroughout) :
    p.IsHookedThroughout := by
  intro q hholds
  cases hholds with
  | refl => exact hp
  | part hpart tail => exact hparts _ hpart q tail

theorem exposeAs (h : p.IsHookedThroughout) (ty : Ty) : (p.exposeAs ty).IsHookedThroughout := by
  have hforwarded : ∀ inner : Provider, inner.IsHookedThroughout →
      (Provider.forwarded ty inner).IsHookedThroughout :=
    fun inner hinner => .of_parts trivial (by simpa [parts] using hinner)
  unfold Provider.exposeAs
  split
  · exact h
  · split
    · exact hforwarded _ (h.holds (.part (by simp [parts]) (.refl _)))
    · exact hforwarded _ h

end IsHookedThroughout

end Provider

/-! ### Decorators and declarations -/

/-- A decorator made by a constructor of decorators, and perhaps asked to be released, initialized or
asynchronous. -/
inductive Decorator.Built : Decorator → Prop
  | construction (constructor : Method) (decorated : Ty) (slot : Nat) :
      Built (.construction constructor decorated slot)
  | function (method : Method) (slot : Nat) : Built (.function method slot)
  | withDispose {d : Decorator} (h : Built d) (disposability : Disposability) :
      Built (d.withDispose disposability)
  | withInitialization {d : Decorator} (h : Built d) : Built d.withInitialization
  | withAsync {d : Decorator} (h : Built d) : Built d.withAsync

namespace Decorator

/-- A decorator type is initialized once that was asked for. -/
theorem isInitialized_withInitialization (d : Decorator) :
    d.withInitialization.kind = .function ∨ d.withInitialization.isInitialized = true := by
  unfold withInitialization
  split
  · exact .inr rfl
  · exact .inl ‹_›

/-- A decorator type that suspends is initialized. -/
theorem Built.isInitialized {d : Decorator} (h : d.Built) (hasync : d.isAsync = true) :
    d.kind = .function ∨ d.isInitialized = true := by
  induction h with
  | construction => cases hasync
  | function => exact .inl rfl
  | withDispose _ _ ih => exact ih hasync
  | @withInitialization d _ _ => exact d.isInitialized_withInitialization
  | @withAsync d _ _ => exact d.isInitialized_withInitialization

/-- So is a decorator fitted to a type. -/
theorem isInitialized_of_specialize {d fitted : Decorator} {ty : Ty}
    (h : d.specialize ty = some fitted) (hd : d.kind = .function ∨ d.isInitialized = true) :
    fitted.kind = .function ∨ fitted.isInitialized = true := by
  obtain ⟨bindings, -, rfl⟩ := Option.map_eq_some_iff.mp h
  rcases hd with hkind | hinitialized
  · exact .inl (by rw [hkind])
  · refine .inr ?_
    unfold isInitialized at hinitialized ⊢
    cases hkind : d.kind with
    | function => rw [hkind] at hinitialized; cases hinitialized
    | construction => rw [hkind] at hinitialized; exact hinitialized

end Decorator

namespace Declarations

variable {ds : Declarations}

theorem declare_hooked {p : Provider} (hds : ∀ q ∈ ds.providers, q.IsHookedThroughout)
    (hp : p.IsHookedThroughout) (exposedAs : List Ty) :
    ∀ q ∈ (ds.declare p exposedAs).providers, q.IsHookedThroughout := by
  intro q hq
  rcases List.mem_append.mp hq with hq | hq
  · exact hds q hq
  · rcases List.mem_cons.mp hq with rfl | hq
    · exact hp
    · obtain ⟨ty, -, rfl⟩ := List.mem_map.mp hq
      exact hp.exposeAs ty

/-- What composed declarations hold suspends in hooks only. Declared one by one, an asynchronous
constructor always has a hook, as `addConstructor` gives it one. -/
theorem Composed.hooked (h : ds.Composed) : ∀ p ∈ ds.providers, p.IsHookedThroughout := by
  have hflat : ∀ p : Provider, p.IsHooked → p.parts = [] → p.IsHookedThroughout :=
    fun p hp hparts => .of_parts hp (by simp [hparts])
  -- By the way the declarations were composed: a constructor that is asynchronous is initialized, and
  -- neither factories nor functions have hooks.
  induction h with
  | empty => simp
  | constructor h constructor lifetime options ih =>
      have hconstruct : ∀ site, (Provider.construct site ⟨constructor.owner, lifetime, constructor,
          options.initialized || options.isAsync, options.isAsync,
          options.disposability⟩).IsHookedThroughout := fun site => hflat _ (fun hasync => by
        change (options.initialized || options.isAsync) = true
        rw [show options.isAsync = true from hasync, Bool.or_true]) rfl
      exact declare_hooked ih (hconstruct _) _
  | factory h constructor makerLifetime product lifetime options ih =>
      have hmaker : ∀ site, (Provider.construct site ⟨constructor.owner, makerLifetime, constructor,
          false, false, .none⟩).IsHookedThroughout := fun site => hflat _ (by rintro ⟨⟩) rfl
      have hfactory : ∀ site made isAsync, (Provider.factory site product (.construct made _) lifetime
          isAsync).IsHookedThroughout :=
        fun _ made _ => .of_parts trivial (by simpa [Provider.parts] using hmaker made)
      exact declare_hooked (declare_hooked ih (hmaker _) _) (hfactory _ _ _) _
  | function h method lifetime options ih =>
      have hcall : ∀ site rule, (Provider.call site rule).IsHookedThroughout :=
        fun _ _ => hflat _ trivial rfl
      unfold addFunction
      split
      · exact ih
      · exact declare_hooked ih (hcall _ _) _
  | member h member ih =>
      have hheld : (Provider.held member).IsHookedThroughout := hflat _ trivial rfl
      exact declare_hooked ih hheld _
  | decorator h decorator ih => exact ih

/-- With built decorators, what resolution finds suspends in hooks only. -/
theorem Composed.resolve_hooked (h : ds.Composed) (hbuilt : ∀ d ∈ ds.decorators, d.Built) {ty : Ty}
    {p : Provider} (hresolve : ds.build.catalog.resolve ty = .found p) : p.IsHookedThroughout := by
  refine Catalog.resolve_induction (fun q hq => h.hooked q (mem_of_mem_declared hq))
    (fun ty decorator hdecorator q hq => ?_) (fun ty template _ q hinstance => ?_)
    (fun ty element items hitems => .of_parts trivial (by simpa [Provider.parts] using hitems))
    (fun ty result params isAsync => .of_parts trivial (by simp [Provider.parts]))
    (fun ty value isAsync => .of_parts trivial (by simp [Provider.parts])) hresolve
  · refine .of_parts (fun hasync => ?_) (by simpa [Provider.parts] using hq)
    obtain ⟨declared, hdeclared, hfitted⟩ := DecoratorIndex.exists_of_mem_forType hdecorator
    have hsame : declared.isAsync = decorator.isAsync := by
      obtain ⟨bindings, -, rfl⟩ := Option.map_eq_some_iff.mp hfitted
      rfl
    exact Decorator.isInitialized_of_specialize hfitted
      ((hbuilt declared hdeclared).isInitialized (hsame.trans hasync))
  · obtain ⟨bindings, -, rfl⟩ := Option.map_eq_some_iff.mp hinstance
    exact .of_parts trivial (by simp [Provider.parts])

end Declarations

end Wiring
