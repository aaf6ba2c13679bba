import Mathlib
import Wiring.Declarations
import Wiring.Proofs.Assembly.ReleaseStyle
import Wiring.Proofs.Container.Reach
import Wiring.Proofs.Typing

/-!
# Values that can be released without waiting

If everything declared can be released without waiting, a plan flags a release only where its style
asks for one that waits and the plan cannot. That leaves the plans of accessors that do not suspend, in
a container that is released asynchronously, and the bodies of synchronous delegates under an
asynchronous style; a root, an owned value and whatever can wait release everything.

* `Declarations.OffersSync` — nothing declared insists on a release that waits.
* `Declarations.OffersSync.within` — then nothing found below a root does.
* `ContainerPlan.unreleasable_eq` — the releases that the plans of a container flag.
-/

namespace Wiring

/-! ### Everything found offers a release without waiting -/

/-- The provider and everything within it can be released without waiting. -/
def Provider.OffersSyncThroughout (p : Provider) : Prop :=
  ∀ q, p.Holds q → q.OffersSync

namespace Provider.OffersSyncThroughout

variable {p q : Provider}

theorem self (h : p.OffersSyncThroughout) : p.OffersSync := h p (.refl p)

theorem part (h : p.OffersSyncThroughout) (hq : q ∈ p.parts) : q.OffersSyncThroughout :=
  fun r hr => h r (.part hq hr)

theorem of_parts (hp : p.OffersSync) (hparts : ∀ q ∈ p.parts, q.OffersSyncThroughout) :
    p.OffersSyncThroughout := by
  intro q hholds
  cases hholds with
  | refl => exact hp
  | part hpart tail => exact hparts _ hpart q tail

end Provider.OffersSyncThroughout

/-- Nothing declared insists on a release that waits: no provider, nothing that a provider carries
along, no template and no decorator; and no factory suspends. -/
structure Declarations.OffersSync (ds : Declarations) : Prop where
  providers : ∀ p ∈ ds.providers, p.OffersSyncThroughout
  templates : ∀ template ∈ ds.templates, template.disposability ≠ .async
  decorators : ∀ decorator ∈ ds.decorators, decorator.release ≠ .async

namespace Declarations.OffersSync

variable {ds : Declarations} {p : Provider} {ty : Ty}

/-- Providers without parts, none of them a factory, can be looked at one by one. -/
theorem of_flat
    (hproviders : ds.providers.all
      (fun p => p.parts.isEmpty && !p.isFactory && p.release != .async) = true)
    (htemplates : ds.templates = []) (hdecorators : ds.decorators = []) : ds.OffersSync := by
  refine ⟨fun p hp => ?_, by simp [htemplates], by simp [hdecorators]⟩
  have hflat := List.all_eq_true.mp hproviders p hp
  simp only [Bool.and_eq_true, List.isEmpty_iff, Bool.not_eq_true', bne_iff_ne] at hflat
  obtain ⟨⟨hparts, hfactory⟩, hrelease⟩ := hflat
  refine .of_parts ⟨hrelease, fun hp => ?_⟩ (by simp [hparts])
  rw [hfactory] at hp
  cases hp

theorem release_of_mem_forType (h : ds.OffersSync) {decorator : Decorator}
    (hmem : decorator ∈ ds.build.catalog.decorators.forType ty) : decorator.release ≠ .async := by
  obtain ⟨declared, hdeclared, hspecialized⟩ := DecoratorIndex.exists_of_mem_forType hmem
  obtain ⟨bindings, -, rfl⟩ := Option.map_eq_some_iff.mp hspecialized
  exact h.decorators declared hdeclared

/-- What a type resolves to can be released without waiting. -/
theorem resolve (h : ds.OffersSync) (hresolve : ds.build.catalog.resolve ty = .found p) :
    p.OffersSyncThroughout := by
  have hmadeUp : ∀ q : Provider, q.release = .none → q.isFactory = false →
      (∀ r ∈ q.parts, r.OffersSyncThroughout) → q.OffersSyncThroughout := by
    intro q hrelease hfactory hparts
    refine .of_parts ⟨by rw [hrelease]; exact Disposability.noConfusion, fun hq => ?_⟩ hparts
    rw [hfactory] at hq
    cases hq
  refine Catalog.resolve_induction (fun q hq => h.providers q (mem_of_mem_declared hq))
    (fun ty decorator hdecorator q hq => ?_) (fun ty template htemplate q hinstance => ?_)
    (fun ty element items hitems => hmadeUp _ rfl rfl (by simpa [Provider.parts] using hitems))
    (fun ty result params isAsync => hmadeUp _ rfl rfl (by simp [Provider.parts]))
    (fun ty value isAsync => hmadeUp _ rfl rfl (by simp [Provider.parts])) hresolve
  · exact .of_parts ⟨h.release_of_mem_forType hdecorator, by rintro ⟨⟩⟩
      (by simpa [Provider.parts] using hq)
  · obtain ⟨bindings, -, rfl⟩ := Option.map_eq_some_iff.mp hinstance
    exact .of_parts ⟨h.templates template htemplate, by rintro ⟨⟩⟩ (by simp [Provider.parts])

/-- Nothing below a root insists on a release that waits. -/
theorem within (h : ds.OffersSync) (ty : Ty) (isAsync : Bool) :
    (Place.atRoot ds.build ty isAsync).Within Provider.OffersSync := by
  have hwithin : (Place.atRoot ds.build ty isAsync).Within Provider.OffersSyncThroughout := by
    refine Place.within_of_closed (fun param name depth => ?_) (fun ty p => h.resolve)
      (fun p q hp => hp.part) ty isAsync
    exact .of_parts ⟨Disposability.noConfusion, by rintro ⟨⟩⟩ (by simp [Provider.parts])
  exact fun x hx p hp => (hwithin x hx p hp).self

end Declarations.OffersSync

/-! ### The plans of a container -/

namespace ContainerPlan

variable {c : Settings} {ds : Declarations}

/-- In every plan of a tree, given the style of the tree and whether its root can wait, the releases
that cannot run are those of values that offer both ways and of what was registered for delegates, and
those only in a plan that cannot wait but has an asynchronous style. -/
def FlagsFlexible (style isAsync : Bool) (outer : Plan) : Prop :=
  ∀ around nested, outer.Within around nested → nested.unreleasable =
    if releaseStyle style around && !canWait isAsync around then nested.steps.filter Step.isFlexible
    else []

theorem FlagsFlexible.intro {style isAsync : Bool} {outer : Plan} {catalog : Catalog}
    {base : Environment} (hstyled : outer.Styled style isAsync)
    (habout : outer.IsAbout ((Reach.within Provider.OffersSync).Finds catalog) base) :
    FlagsFlexible style isAsync outer := fun _ _ hwithin =>
  (hstyled.within hwithin).unreleasable
    ((habout.mono fun _ => Reach.among_of_finds).within hwithin)

/-- The body of an owned value flags no release: its style is its own. -/
theorem FlagsFlexible.owned {style isAsync : Bool} {outer nested body : Plan}
    {around : List (Plan × Step)} {step : Step} {name : String} {p : Provider} {waits : Bool}
    (h : FlagsFlexible style isAsync outer) (hwithin : outer.Within around nested)
    (hstep : step ∈ nested.steps) (hstatement : step.statement = .ownedFunction name p waits body) :
    body.unreleasable = [] := by
  have hbody : step.statement.body? = some body := by rw [hstatement]; rfl
  have hstyle : releaseStyle style ((nested, step) :: around) =
      canWait isAsync ((nested, step) :: around) := by
    show step.statement.bodyStyle _ = step.statement.isBodyAsync
    rw [hstatement]
    rfl
  rw [h _ _ (.body hwithin hstep hbody), hstyle]
  simp

/-- If nothing declared insists on a release that waits, the plans of roots and the bodies of owned
values flag no release; in any plan the flagged releases are the flexible ones, where the style is
asynchronous and the plan cannot wait. -/
theorem unreleasable_eq (c : Settings) (requests : List RootRequest) (ds : Declarations)
    (plan : ContainerPlan) (henv : c.env = ds.build) (hoffers : ds.OffersSync)
    (h : run c requests = .ok plan) :
    (∀ root ∈ plan.roots, ∀ body, root.plan? = some body →
      body.unreleasable = [] ∧ FlagsFlexible root.request.isAsync root.request.isAsync body) ∧
    (∀ accessor ∈ plan.singletons, FlagsFlexible plan.asyncRelease accessor.isAsync accessor.plan) ∧
    ∀ outer ∈ plan.plans, ∀ around nested, outer.Within around nested → ∀ step ∈ nested.steps,
      ∀ name p isAsync body, step.statement = .ownedFunction name p isAsync body →
        body.unreleasable = [] := by
  -- Everything met comes from the declarations, where nothing insists on a release that waits.
  obtain ⟨hroots, haccessors⟩ := isAbout (Reach.isClosed_within Provider.OffersSync) h
    fun root _ _ _ target hlookup => ⟨false, by
      have hwithin := hoffers.within root.request.ty false
      rw [← henv] at hwithin
      exact hwithin.given hlookup⟩
  have hroot : ∀ root ∈ plan.roots, ∀ body, root.plan? = some body →
      FlagsFlexible root.request.isAsync root.request.isAsync body := by
    intro root hmem body hbody
    obtain ⟨-, target, -, hplan⟩ := root_planned h hmem hbody
    exact .intro (planResolution_styled hplan) (hroots root hmem body hbody)
  have haccessor : ∀ accessor ∈ plan.singletons,
      FlagsFlexible plan.asyncRelease accessor.isAsync accessor.plan := fun accessor hmem =>
    .intro (planAccessor_styled (accessor_planned h hmem)) (haccessors accessor hmem)
  refine ⟨fun root hmem body hbody => ⟨?_, hroot root hmem body hbody⟩, haccessor, ?_⟩
  · rw [hroot root hmem body hbody [] body .root]
    simp [releaseStyle, canWait]
  · intro outer houter around nested hnested step hstep name p isAsync body hstatement
    rcases List.mem_append.mp houter with houter | houter
    · obtain ⟨root, hmem, hplan⟩ := List.mem_filterMap.mp houter
      exact (hroot root hmem outer hplan).owned hnested hstep hstatement
    · obtain ⟨accessor, hmem, rfl⟩ := List.mem_map.mp houter
      exact (haccessor accessor hmem).owned hnested hstep hstatement

/-- An asynchronous root with a singleton that offers both ways, and an owned value that does. -/
theorem unreleasable_eq_owned :
    let a : Ty := .plain "A"
    let b : Ty := .plain "B"
    let r : Ty := .plain "R"
    let needs (tys : List Ty) : List Parameter := tys.map fun ty => ⟨"", 0, ty, false⟩
    let ds := (({} : Declarations).addConstructor (.new a []) .single { disposability := .both })
      |>.addConstructor (.new b []) .resolution { disposability := .both }
      |>.addConstructor (.new r (needs [a, .owned b false])) .resolution {}
    ∃ plan, run ⟨ds.build, {}, .never, none⟩ [⟨r, true⟩] = .ok plan ∧ ds.OffersSync ∧
      plan.singletons.map (fun accessor => accessor.plan.unreleasable.length) = [1] ∧
      (∀ root ∈ plan.roots, ∀ body, root.plan? = some body →
        body.unreleasable = [] ∧ FlagsFlexible root.request.isAsync root.request.isAsync body) ∧
      (∀ accessor ∈ plan.singletons, FlagsFlexible plan.asyncRelease accessor.isAsync accessor.plan) ∧
      ∀ outer ∈ plan.plans, ∀ around nested, outer.Within around nested → ∀ step ∈ nested.steps,
        ∀ name p isAsync body, step.statement = .ownedFunction name p isAsync body →
          body.unreleasable = [] := by
  intro a b r needs ds
  have hoffers : ds.OffersSync := .of_flat (by cbv) rfl rfl
  have hsummary : (run ⟨ds.build, {}, .never, none⟩ [⟨r, true⟩]).toOption.map (fun plan =>
      plan.singletons.map fun accessor => accessor.plan.unreleasable.length) = some [1] := by cbv
  obtain ⟨plan, hplan, hsummary⟩ := Option.map_eq_some_iff.mp hsummary
  have hok := Run.ok_of_toOption hplan
  exact ⟨plan, hok, hoffers, hsummary, unreleasable_eq _ _ ds plan rfl hoffers hok⟩

/-- A singleton that offers both ways, in a container that is released asynchronously: the plan of its
accessor does not suspend, and flags the release. -/
theorem unreleasable_accessor :
    let a : Ty := .plain "A"
    let r : Ty := .plain "R"
    let needs (tys : List Ty) : List Parameter := tys.map fun ty => ⟨"", 0, ty, false⟩
    let ds := (({} : Declarations).addConstructor (.new a []) .single { disposability := .both })
      |>.addConstructor (.new r (needs [a])) .resolution {}
    ds.OffersSync ∧ ∃ plan, run ⟨ds.build, {}, .never, none⟩ [⟨r, true⟩] = .ok plan ∧
      ∃ accessor ∈ plan.singletons, accessor.plan.unreleasable ≠ [] := by
  intro a r needs ds
  have hsummary : (run ⟨ds.build, {}, .never, none⟩ [⟨r, true⟩]).toOption.map (fun plan =>
      plan.singletons.map fun accessor => accessor.plan.unreleasable.length) = some [1] := by cbv
  obtain ⟨plan, hplan, hsummary⟩ := Option.map_eq_some_iff.mp hsummary
  obtain ⟨accessor, rest, hsingletons, hflagged, -⟩ := List.map_eq_cons_iff.mp hsummary
  refine ⟨.of_flat (by cbv) rfl rfl, plan, Run.ok_of_toOption hplan, accessor,
    hsingletons ▸ List.mem_cons_self, fun hnone => ?_⟩
  rw [hnone] at hflagged
  cases hflagged

end ContainerPlan

end Wiring
