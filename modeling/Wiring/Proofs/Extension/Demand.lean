import Wiring.Declarations
import Wiring.Proofs.Assembly.Origin
import Wiring.Proofs.Unfolding.Finite

/-!
# What a root sees of its container

Declaring more providers changes what some types resolve to. A root notices only if one of those
types is looked up somewhere below it.

* `Provider.demands` — the types that a provider's dependencies are looked up by.
* `Place.Demands` — the types looked up at a place and below it; `Place.demanded` lists them.
* `Environment.withCatalog` — an environment with its frames laid over another catalog.
* `Environment.Ignores` — nothing below a request tells two catalogs apart.
* `Declarations.extend` — declarations with further providers at the end.
* `Declarations.resolve_extend` — the types whose resolution stays the same.
-/

namespace Wiring

/-- The types that a provider's dependencies are looked up by. What a provider carries along is not
looked up. -/
def Provider.demands : Provider → List Ty
  | .construct _ rule => rule.constructor.params.map Parameter.ty
  | .call _ rule => rule.method.params.map Parameter.ty
  | .decorated _ decorator _ =>
      (decorator.method.params.filter fun param => param.ordinal ≠ decorator.slot).map Parameter.ty
  | .delegate _ result _ _ => [result]
  | .owned _ value _ => [value]
  | .factory .. | .forwarded .. | .array .. | .parameter .. | .held _ => []

/-- A type is looked up for the request at a place or for a provider below it. -/
def Place.Demands (x : Place) (ty : Ty) : Prop :=
  x.request.ty = ty ∨ ∃ p, x.Meets p ∧ ty ∈ p.demands

/-- The types looked up at a place and below it, down to a depth. -/
def Place.demanded (depth : Nat) (x : Place) : List Ty :=
  x.request.ty ::
    (x.unfold depth).flatMap fun y => y.request.provider?.toList.flatMap Provider.demands

/-- Where the unfolding ends, every type looked up is listed. -/
theorem Place.mem_demanded {depth : Nat} {x : Place} {ty : Ty} (hends : x.endsWithin depth = true) :
    ty ∈ x.demanded depth ↔ x.Demands ty := by
  unfold demanded Demands Meets
  simp only [List.mem_cons, List.mem_flatMap, mem_unfold hends, Option.mem_toList]
  constructor
  · rintro (rfl | ⟨y, hy, p, hp, hty⟩)
    · exact .inl rfl
    · exact .inr ⟨p, ⟨y, hy, hp⟩, hty⟩
  · rintro (rfl | ⟨p, ⟨y, hy, hp⟩, hty⟩)
    · exact .inl rfl
    · exact .inr ⟨y, hy, p, hp, hty⟩

namespace Environment

variable {env : Environment} {p : Provider} {r : Request} {ty : Ty}

/-- What nothing provides was demanded: what a provider carries along is there, and all else it asks the
environment for. -/
theorem demands_of_absent (hr : r ∈ env.requests p) (habsent : r.provider? = none) :
    r.ty ∈ p.demands := by
  cases p <;> simp only [requests, List.mem_map, List.mem_singleton, List.not_mem_nil] at hr
  case construct site rule =>
      obtain ⟨param, hmem, rfl⟩ := hr
      exact List.mem_map_of_mem hmem
  case call site rule =>
      obtain ⟨param, hmem, rfl⟩ := hr
      exact List.mem_map_of_mem hmem
  case decorated site decorator inner =>
      obtain ⟨param, hmem, rfl⟩ := hr
      unfold decoratorRequest at habsent ⊢
      split at habsent
      · cases habsent
      · rename_i hslot
        rw [if_neg hslot]
        exact List.mem_map_of_mem (List.mem_filter.mpr ⟨hmem, by simpa using hslot⟩)
  case delegate ty result params isAsync =>
      subst hr
      exact List.mem_singleton_self _
  case owned ty value isAsync =>
      subst hr
      exact List.mem_singleton_self _
  case factory site product maker lifetime isAsync =>
      subst hr
      cases habsent
  case forwarded ty inner =>
      subst hr
      cases habsent
  case array ty element items =>
      obtain ⟨item, -, rfl⟩ := hr
      cases habsent

/-! ### Another catalog underneath -/

/-- The environment with its frames laid over another catalog. -/
def withCatalog (catalog : Catalog) (env : Environment) : Environment :=
  { env with catalog }

variable {a b : Catalog}

@[simp] theorem withCatalog_frames (env : Environment) : (env.withCatalog b).frames = env.frames := rfl

theorem withCatalog_root (env : Environment) : (env.withCatalog b).root = env.root.withCatalog b := rfl

theorem withCatalog_enter (env : Environment) (p : Provider) :
    (env.withCatalog b).enter p = (env.enter p).withCatalog b := by
  unfold enter
  split
  · rfl
  · rfl
  · split <;> rfl

theorem withCatalog_resolve (h : b.resolve ty = env.catalog.resolve ty) :
    (env.withCatalog b).resolve ty = env.resolve ty := by
  unfold resolve
  rw [withCatalog_frames, show (env.withCatalog b).catalog = b from rfl, h]

theorem withCatalog_lookup (h : b.resolve ty = env.catalog.resolve ty) :
    (env.withCatalog b).lookup ty = env.lookup ty := by
  rw [lookup, lookup, withCatalog_resolve h]

end Environment

/-- Two catalogs resolve all that a provider demands alike. -/
def Provider.Ignores (a b : Catalog) (p : Provider) : Prop :=
  ∀ ty ∈ p.demands, b.resolve ty = a.resolve ty

namespace Environment

variable {a b : Catalog} {env : Environment} {p : Provider} {r : Request}

theorem withCatalog_requests (hcatalog : env.catalog = a) (h : p.Ignores a b) :
    (env.withCatalog b).requests p = env.requests p := by
  have hlookup : ∀ ty ∈ p.demands, (env.withCatalog b).lookup ty = env.lookup ty :=
    fun ty hty => withCatalog_lookup (hcatalog ▸ h ty hty)
  have hparam : ∀ param : Parameter, param.ty ∈ p.demands →
      (env.withCatalog b).paramRequest param = env.paramRequest param := fun param hty => by
    rw [paramRequest, paramRequest, hlookup _ hty]
  -- What a provider carries along needs no look-up; the rest was demanded, and both catalogs resolve
  -- that alike.
  cases p <;> simp only [requests]
  case construct site rule =>
      exact List.map_congr_left fun param hmem => hparam param (List.mem_map_of_mem hmem)
  case call site rule =>
      exact List.map_congr_left fun param hmem => hparam param (List.mem_map_of_mem hmem)
  case decorated site decorator inner =>
      refine List.map_congr_left fun param hmem => ?_
      unfold decoratorRequest
      split
      · rfl
      · rename_i hslot
        exact hparam param
          (List.mem_map_of_mem (List.mem_filter.mpr ⟨hmem, by simpa using hslot⟩))
  case delegate ty result params isAsync =>
      rw [request, request, hlookup result (List.mem_singleton_self _)]
  case owned ty value isAsync =>
      rw [request, request, hlookup value (List.mem_singleton_self _)]

/-- Nothing demanded below a request, made over the first catalog, is resolved differently by the
second. -/
def Ignores (a b : Catalog) (env : Environment) (r : Request) : Prop :=
  (Place.mk env false r).Belongs a (Provider.Ignores a b)

namespace Ignores

theorem next (h : env.Ignores a b r) (hp : r.provider? = some p) {below : Request}
    (hbelow : below ∈ (env.enter p).requests p) : (env.enter p).Ignores a b below := by
  have hnext := Place.Belongs.next h (.intro hp hbelow)
  exact ⟨hnext.catalog, hnext.within.of_isAsync false⟩

theorem given (h : env.Ignores a b r) (hp : r.provider? = some p) :
    env.Ignores a b (Environment.given p) :=
  ⟨h.catalog, h.within.given hp⟩

/-- The dependencies of the provider are the same over both catalogs. -/
theorem requests (h : env.Ignores a b r) (hp : r.provider? = some p) :
    ((env.enter p).withCatalog b).requests p = (env.enter p).requests p :=
  withCatalog_requests ((catalog_enter env p).trans h.catalog) (h.within.provider hp)

/-- What below a provider has no provider is not resolved by the second catalog either. -/
theorem absent (h : env.Ignores a b r) (hp : r.provider? = some p) {below : Request}
    (hbelow : below ∈ (env.enter p).requests p) (habsent : below.provider? = none) :
    b.resolve below.ty = a.resolve below.ty :=
  h.within.provider hp below.ty (demands_of_absent hbelow habsent)

/-- Below a singleton it does not matter where it is met. -/
theorem of_single (h : env.Ignores a b r) (hp : r.provider? = some p)
    (hsingle : p.lifetime = .single) {other : Environment} (hcatalog : other.catalog = a) :
    other.Ignores a b (Environment.given p) := by
  have henter : other.enter p = env.enter p := by
    rw [enter_of_single _ hsingle, enter_of_single _ hsingle, root, root, hcatalog, h.catalog]
  refine ⟨hcatalog, h.within.of_next hp fun y hy => ?_⟩
  obtain ⟨hprovider, hr⟩ := hy
  cases hprovider
  simp only [henter] at hr ⊢
  exact .intro hp hr

end Ignores

end Environment

/-! ### Declaring more -/

namespace Catalog

variable {declared extra : List Provider} {ty : Ty}

/-- Providers of other types leave the declared providers of a type alone. -/
theorem filter_foldl_insert (h : ∀ p ∈ extra, p.ty ≠ ty) :
    (extra.foldl insert declared).filter (fun q => q.ty = ty) =
      declared.filter fun q => q.ty = ty := by
  obtain ⟨added, hsublist, heq⟩ := foldl_insert extra declared
  have hnone : added.filter (fun q => q.ty = ty) = [] :=
    List.filter_eq_nil_iff.mpr fun p hp => by simpa using h p (hsublist.subset hp)
  rw [heq, List.filter_append, hnone, List.append_nil]

/-- Catalogs with the same templates and decorators resolve a type alike if they agree on the
declared providers of the type and, for an array, of its elements. -/
theorem resolve_congr {a b : Catalog} (htemplates : b.templates = a.templates)
    (hdecorators : b.decorators = a.decorators) (hdeclared : b.declaredFor ty = a.declaredFor ty)
    (helement : ∀ element, ty = .array element → b.declaredFor element = a.declaredFor element) :
    b.resolve ty = a.resolve ty := by
  have hdecorate : b.decorate = a.decorate := by
    funext p
    rw [decorate, decorate, hdecorators]
  have hspecialize : ∀ ty, b.specialize ty = a.specialize ty := fun ty => by
    rw [specialize, specialize, htemplates]
  have hsynthesize : b.synthesize ty = a.synthesize ty := by
    cases ty with
    | array element =>
        rw [synthesize, synthesize, items, items, helement element rfl, hspecialize, hdecorate]
    | _ => first | rfl | exact hspecialize _
  rw [resolve, resolve, hdeclared, hsynthesize, hdecorate]

end Catalog

namespace Declarations

/-- The declarations with further providers after all others. -/
def extend (ds : Declarations) (extra : List Provider) : Declarations :=
  { ds with providers := ds.providers ++ extra }

theorem build_extend (ds : Declarations) (extra : List Provider) :
    (ds.extend extra).build = ds.build.withCatalog (ds.extend extra).build.catalog := rfl

/-- A type that no further provider has, neither itself nor for its elements, resolves as before. -/
theorem resolve_extend {ds : Declarations} {extra : List Provider} {ty : Ty}
    (h : ∀ p ∈ extra, ty ≠ p.ty ∧ ty ≠ .array p.ty) :
    (ds.extend extra).build.catalog.resolve ty = ds.build.catalog.resolve ty := by
  have hdeclared : ∀ ty', (∀ p ∈ extra, p.ty ≠ ty') →
      (ds.extend extra).build.catalog.declaredFor ty' = ds.build.catalog.declaredFor ty' := by
    intro ty' hty
    have happend : (ds.extend extra).build.catalog.declared =
        extra.foldl Catalog.insert ds.build.catalog.declared := List.foldl_append
    rw [Catalog.declaredFor, Catalog.declaredFor, happend, Catalog.filter_foldl_insert hty]
  refine Catalog.resolve_congr rfl rfl (hdeclared ty fun p hp => (h p hp).1.symm) ?_
  rintro element rfl
  refine hdeclared element fun p hp heq => (h p hp).2 ?_
  rw [heq]

end Declarations

end Wiring
