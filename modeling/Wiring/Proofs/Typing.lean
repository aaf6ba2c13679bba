import Wiring.Declarations
import Wiring.Proofs.Matching
import Wiring.Proofs.Unfolding.Consistency

/-!
# Providers have the types they are asked for

What is found for a type provides that type. Values are shared by identity, so it also matters that the
identity of a provider tells its type. It does in a container whose declarations hold no provider given
in full: a function then provides what it returns.

* `Environment.lookup_ty` — the provider found for a type has that type.
* `Provider.IsRegular` — a function provides what it returns, and a parameter is one of a delegate.
* `Provider.IsRegular.ty_eq` — regular providers of one identity have one type.
* `Declarations.Composed` — declarations of constructors, factories, functions, members and decorators.
* `Place.within_regular` — in a container so declared everything below a root is regular.
-/

namespace Wiring

/-! ### Types found -/

namespace Catalog

variable {catalog : Catalog} {ty : Ty} {p : Provider}

theorem decorate_ty (catalog : Catalog) (p : Provider) : (catalog.decorate p).ty = p.ty := by
  have hfitted : ∀ decorators : List Decorator,
      (∀ decorator ∈ decorators, decorator.decorated = p.ty) → ∀ q : Provider, q.ty = p.ty →
        (decorators.foldl (fun inner decorator => .decorated none decorator inner) q).ty = p.ty := by
    intro decorators
    induction decorators with
    | nil => exact fun _ q hq => hq
    | cons decorator rest ih =>
        intro hdecorators q hq
        exact ih (fun d hd => hdecorators d (List.mem_cons_of_mem _ hd)) _
          (hdecorators decorator List.mem_cons_self)
  unfold decorate
  split
  · refine hfitted _ (fun decorator hdecorator => ?_) p rfl
    obtain ⟨declared, -, hspecialized⟩ := List.mem_filterMap.mp hdecorator
    obtain ⟨bindings, -, rfl⟩ := Option.map_eq_some_iff.mp hspecialized
    rfl
  · rfl

theorem specialize_ty (h : catalog.specialize ty = .found p) : p.ty = ty := by
  obtain ⟨template, -, hinstance⟩ := List.mem_filterMap.mp (ofList_found h)
  obtain ⟨bindings, -, rfl⟩ := Option.map_eq_some_iff.mp hinstance
  rfl

/-- What resolution finds provides the type, whether it was declared, made from a template or made up
for a type that describes itself. -/
theorem resolve_ty (h : catalog.resolve ty = .found p) : p.ty = ty := by
  unfold resolve at h
  split at h
  · obtain ⟨q, hq, rfl⟩ := map_found h
    rw [decorate_ty]
    unfold synthesize at hq
    split at hq
    · cases hq
      rfl
    · cases hq
      rfl
    · cases hq
      rfl
    · exact specialize_ty hq
  · obtain ⟨q, hq, rfl⟩ := map_found h
    rw [decorate_ty]
    simpa using (List.mem_filter.mp (ofList_found hq)).2

end Catalog

/-- What the frames bind to a type has that type. -/
def Environment.IsTyped (env : Environment) : Prop :=
  ∀ frame ∈ env.frames, ∀ entry ∈ frame, entry.2.ty = entry.1

namespace Environment

variable {env : Environment} {ty : Ty} {p : Provider}

theorem IsTyped.root (env : Environment) : env.root.IsTyped :=
  fun _ hmem => absurd hmem List.not_mem_nil

theorem IsTyped.enter (h : env.IsTyped) (p : Provider) : (env.enter p).IsTyped := by
  have hpush : ∀ frame : Frame, (∀ entry ∈ frame, entry.2.ty = entry.1) →
      (env.push frame).IsTyped := by
    intro frame hframe other hother
    rcases List.mem_cons.mp hother with rfl | hother
    · exact hframe
    · exact h other hother
  unfold Environment.enter
  split
  · refine hpush _ fun entry hentry => ?_
    obtain ⟨param, index, rfl⟩ := Frame.eq_of_mem_ofParams hentry
    rfl
  · exact hpush _ (by simp)
  · split
    · exact .root env
    · exact h

/-- The provider found for a type has that type. -/
theorem lookup_ty (h : env.IsTyped) (hlookup : env.lookup ty = some p) : p.ty = ty := by
  unfold lookup resolve at hlookup
  split at hlookup
  · rename_i q hq
    cases hlookup
    obtain ⟨frame, hframe, hfind⟩ := List.exists_of_findSome?_eq_some hq
    obtain ⟨entry, hentry, rfl⟩ := Option.map_eq_some_iff.mp hfind
    rw [h frame hframe entry (List.mem_of_find?_eq_some hentry)]
    simpa using List.find?_some hentry
  · cases hresolve : env.catalog.resolve ty with
    | found q =>
        rw [hresolve] at hlookup
        cases hlookup
        exact Catalog.resolve_ty hresolve
    | missing => rw [hresolve] at hlookup; cases hlookup
    | ambiguous n => rw [hresolve] at hlookup; cases hlookup

end Environment

/-! ### Regular providers -/

/-- A function provides what it returns; a parameter is that of a delegate, and no other provider holds
one. -/
structure Provider.IsRegular (p : Provider) : Prop where
  returned : ∀ site rule, p = .call site rule → rule.product = rule.method.result
  known : Known (fun _ => False) IsParameterName p

namespace Provider.IsRegular

variable {p q : Provider}

/-- Regular providers of one identity have one type. -/
theorem ty_eq (hp : p.IsRegular) (hq : q.IsRegular) (h : p.identity = q.identity) : p.ty = q.ty := by
  -- Identity names the type, or what the type is read off; of a function it leaves the product out.
  cases p with
  | call site rule =>
      cases q with
      | call site' rule' =>
          simp only [identity, Identity.call.injEq] at h
          show rule.product = rule'.product
          rw [hp.returned _ _ rfl, hq.returned _ _ rfl, h.1]
      | _ => cases h
  | _ =>
      cases q with
      | _ => simp_all [identity, ty]

/-- A parameter's name is a delegate's. -/
theorem parameter {param : Parameter} {name : String} {depth : Nat}
    (h : (Provider.parameter param name depth).IsRegular) : IsParameterName name :=
  h.known.parameter.resolve_left id

/-- No part is a parameter. -/
theorem part_ne_parameter (h : p.IsRegular) (hq : q ∈ p.parts) (param : Parameter) (name : String)
    (depth : Nat) : q ≠ .parameter param name depth := by
  rintro rfl
  rcases h.known with hnamed | ⟨_, _, _, rfl, -⟩
  · exact hnamed.part hq param name depth (.refl _)
  · cases hq

end Provider.IsRegular

/-- Every function declared provides what it returns, and no parameter is declared. -/
structure Catalog.IsRegular (catalog : Catalog) : Prop where
  returned : ∀ site rule, catalog.Declares (.call site rule) → rule.product = rule.method.result
  templates : ∀ template ∈ catalog.templates, template.product = template.method.result
  named : catalog.NamedIn fun _ => False

/-- Any function found provides what it returns. -/
theorem Catalog.Yields.returned {catalog : Catalog} (h : catalog.IsRegular) {site : Option Nat}
    {rule : FactoryCall} (hp : catalog.Yields (.call site rule)) : rule.product = rule.method.result := by
  cases hp with
  | declared hdeclares => exact h.returned site rule hdeclares
  | call htemplate hinstance =>
      obtain ⟨bindings, hmatch, heq⟩ := Option.map_eq_some_iff.mp hinstance
      cases heq
      show _ = Ty.substitute bindings _
      rw [← h.templates _ htemplate, Ty.substitute_of_match? hmatch]

/-- Below a root what the frames bind to a type has that type. -/
theorem Place.isTyped_of_leads {env : Environment} {ty : Ty} {isAsync : Bool} {x : Place}
    (hx : (Place.atRoot env ty isAsync).Leads x) : x.env.IsTyped := by
  induction hx with
  | refl => exact .root env
  | tail _ hstep ih =>
      obtain ⟨-, -⟩ := hstep
      exact ih.enter _

/-- Everything below a root of a regular container is regular. -/
theorem Place.within_regular {env : Environment} (h : env.catalog.IsRegular) (ty : Ty) (isAsync : Bool) :
    (Place.atRoot env ty isAsync).Within Provider.IsRegular := by
  have hroot : env.root.Knows (fun _ => False) IsParameterName :=
    ⟨h.named, fun _ hmem => absurd hmem List.not_mem_nil⟩
  intro x hx p hp
  refine ⟨?_, (Place.known_of_leads (fun _ => id) hroot (fun q hq => hroot.lookup hq) hx).2 p hp⟩
  rintro site rule rfl
  exact (Place.within_yields env ty isAsync x hx _ hp).returned h

/-! ### Declarations without providers given in full -/

/-- Declarations made of constructors, factories, functions, members and decorators, in any order and
number. No provider among them is given in full. -/
inductive Declarations.Composed : Declarations → Prop
  | empty : Composed {}
  | constructor {ds : Declarations} (h : Composed ds) (constructor : Method) (lifetime : Lifetime)
      (options : Options) : Composed (ds.addConstructor constructor lifetime options)
  | factory {ds : Declarations} (h : Composed ds) (constructor : Method) (makerLifetime : Lifetime)
      (product : Ty) (lifetime : Lifetime) (options : Options) :
      Composed (ds.addFactory constructor makerLifetime product lifetime options)
  | function {ds : Declarations} (h : Composed ds) (method : Method) (lifetime : Lifetime)
      (options : Options) : Composed (ds.addFunction method lifetime options)
  | member {ds : Declarations} (h : Composed ds) (member : Member) : Composed (ds.addMember member)
  | decorator {ds : Declarations} (h : Composed ds) (decorator : Decorator) :
      Composed (ds.addDecorator decorator)

/-- Neither the provider nor anything within it is a parameter, or a function that provides something
else than it returns. -/
def Provider.IsPlain (p : Provider) : Prop :=
  ∀ q, p.Holds q → q.parameterName? = none ∧
    ∀ site rule, q = .call site rule → rule.product = rule.method.result

namespace Provider.IsPlain

variable {p q : Provider}

theorem of_parts (hp : p.parameterName? = none)
    (hreturned : ∀ site rule, p = .call site rule → rule.product = rule.method.result)
    (hparts : ∀ q ∈ p.parts, q.IsPlain) : p.IsPlain := by
  intro q hholds
  cases hholds with
  | refl => exact ⟨hp, hreturned⟩
  | part hpart tail => exact hparts _ hpart q tail

/-- A provider stays plain when it is exposed as another type. -/
theorem exposeAs (h : p.IsPlain) (ty : Ty) : (p.exposeAs ty).IsPlain := by
  have hforwarded : ∀ inner : Provider, inner.IsPlain → (Provider.forwarded ty inner).IsPlain :=
    fun inner hinner =>
      .of_parts rfl (fun _ _ => Provider.noConfusion) (by simpa [parts] using hinner)
  unfold Provider.exposeAs
  split
  · exact h
  · split
    · exact hforwarded _ fun q hq => h q (.part (by simp [parts]) hq)
    · exact hforwarded _ h

end Provider.IsPlain

namespace Declarations

/-- Declaring a plain provider adds plain providers only. -/
theorem declare_plain {ds : Declarations} {p : Provider} (hds : ∀ q ∈ ds.providers, q.IsPlain)
    (hp : p.IsPlain) (exposedAs : List Ty) : ∀ q ∈ (ds.declare p exposedAs).providers, q.IsPlain := by
  intro q hq
  rcases List.mem_append.mp hq with hq | hq
  · exact hds q hq
  · rcases List.mem_cons.mp hq with rfl | hq
    · exact hp
    · obtain ⟨ty, -, rfl⟩ := List.mem_map.mp hq
      exact hp.exposeAs ty

/-- Composed declarations hold plain providers, and templates that provide what they return. -/
theorem Composed.plain {ds : Declarations} (h : ds.Composed) :
    (∀ p ∈ ds.providers, p.IsPlain) ∧
      ∀ template ∈ ds.templates, template.product = template.method.result := by
  have hconstruct : ∀ site rule, (Provider.construct site rule).IsPlain :=
    fun _ _ => .of_parts rfl (fun _ _ => Provider.noConfusion) (by simp [Provider.parts])
  induction h with
  | empty => exact ⟨by simp, by simp⟩
  | constructor h constructor lifetime options ih =>
      exact ⟨declare_plain ih.1 (hconstruct _ _) _, ih.2⟩
  | factory h constructor makerLifetime product lifetime options ih =>
      refine ⟨declare_plain (declare_plain ih.1 (hconstruct _ _) _) ?_ _, ih.2⟩
      exact .of_parts rfl (fun _ _ => Provider.noConfusion)
        (by simpa [Provider.parts] using hconstruct _ _)
  | function h method lifetime options ih =>
      unfold addFunction
      split
      · refine ⟨ih.1, fun template htemplate => ?_⟩
        rcases List.mem_append.mp htemplate with htemplate | htemplate
        · exact ih.2 template htemplate
        · obtain rfl := List.mem_singleton.mp htemplate
          rfl
      · refine ⟨declare_plain ih.1 (.of_parts rfl ?_ (by simp [Provider.parts])) _, ih.2⟩
        rintro site rule ⟨⟩
        rfl
  | member h member ih =>
      have hheld : (Provider.held member).IsPlain :=
        .of_parts rfl (fun _ _ => Provider.noConfusion) (by simp [Provider.parts])
      exact ⟨declare_plain ih.1 hheld _, ih.2⟩
  | decorator h decorator ih => exact ih

theorem mem_of_mem_declared {declared : List Provider} {templates : List FactoryCall}
    {decorators : List Decorator} {p : Provider}
    (h : p ∈ (Catalog.ofDeclarations declared templates decorators).declared) : p ∈ declared :=
  (Catalog.declared_sublist declared templates decorators).subset h

/-- A container with composed declarations is regular. -/
theorem Composed.isRegular {ds : Declarations} (h : ds.Composed) : ds.build.catalog.IsRegular := by
  obtain ⟨hproviders, htemplates⟩ := h.plain
  refine ⟨?_, htemplates, ?_⟩
  · rintro site rule ⟨p, hp, hholds⟩
    exact (hproviders p (mem_of_mem_declared hp) _ hholds).2 site rule rfl
  · intro p hp param name depth hholds
    cases (hproviders p (mem_of_mem_declared hp) _ hholds).1

end Declarations

end Wiring
