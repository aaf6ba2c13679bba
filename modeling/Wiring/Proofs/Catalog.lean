import Mathlib.Logic.Basic
import Wiring.Environment

/-!
# What resolution can find

A provider that resolution finds was declared, was made up for its type, or decorates such a one.

* `Catalog.resolve_induction` — a property of the declared providers that making up and decorating
  keep holds of everything found.
* `Catalog.declared_sublist` — of the providers declared, some are kept, in their order.
* `Provider.parts` — the providers that a provider carries along.
* `Environment.requests_provider` — a dependency is resolved in the environment, or is a part.
* `DecoratorIndex.exists_of_mem_forType` — the decorators that apply to a type are declared ones.
* `Environment.isNear` — where the walks remember what they enter.
-/

namespace Wiring

namespace Catalog

variable {catalog : Catalog} {P : Provider → Prop}

theorem decorate_induction
    (hdecorated : ∀ ty, ∀ decorator ∈ catalog.decorators.forType ty, ∀ p, P p →
      P (.decorated none decorator p)) {p : Provider} (hp : P p) : P (catalog.decorate p) := by
  unfold decorate
  by_cases hdecoratable : p.isDecoratable = true
  · rw [if_pos hdecoratable]
    clear hdecoratable
    have hall := hdecorated p.ty
    generalize catalog.decorators.forType p.ty = decorators at hall ⊢
    induction decorators generalizing p with
    | nil => exact hp
    | cons decorator rest ih =>
        obtain ⟨hdecorator, hrest⟩ := List.forall_mem_cons.mp hall
        exact ih (hdecorator p hp) hrest
  · rw [if_neg hdecoratable]
    exact hp

theorem ofList_found {providers : List Provider} {p : Provider}
    (h : Resolution.ofList providers = .found p) : p ∈ providers := by
  match providers, h with
  | [_], h => cases h; exact List.mem_singleton_self _

theorem specialize_induction
    (hcall : ∀ ty, ∀ template ∈ catalog.templates, ∀ p, instantiate ty template = some p → P p)
    {ty : Ty} {p : Provider} (h : catalog.specialize ty = .found p) : P p := by
  obtain ⟨template, hmem, htemplate⟩ := List.mem_filterMap.mp (ofList_found h)
  exact hcall ty template hmem p htemplate

theorem mem_declaredFor {ty : Ty} {p : Provider} (h : p ∈ catalog.declaredFor ty) :
    p ∈ catalog.declared :=
  (List.mem_filter.mp h).1

/-- Providers are added behind those that are there, in their order. -/
theorem foldl_insert (rest declared : List Provider) :
    ∃ added, added.Sublist rest ∧ rest.foldl insert declared = declared ++ added := by
  induction rest generalizing declared with
  | nil => exact ⟨[], .slnil, by simp⟩
  | cons p rest ih =>
      by_cases hany : (declared.any fun q => q.ty == p.ty && q.same p) = true
      · obtain ⟨added, hsublist, heq⟩ := ih declared
        exact ⟨added, hsublist.cons p, by rw [List.foldl_cons, insert, if_pos hany, heq]⟩
      · obtain ⟨added, hsublist, heq⟩ := ih (declared ++ [p])
        exact ⟨p :: added, hsublist.cons_cons p, by
          rw [List.foldl_cons, insert, if_neg hany, heq, List.append_assoc, List.singleton_append]⟩

/-- The container keeps the order of declaration. -/
theorem declared_sublist (providers : List Provider) (templates : List FactoryCall)
    (decorators : List Decorator) :
    (ofDeclarations providers templates decorators).declared.Sublist providers := by
  obtain ⟨added, hsublist, heq⟩ := foldl_insert providers []
  change (providers.foldl insert []).Sublist providers
  rwa [heq]

theorem map_found {resolution : Resolution} {f : Provider → Provider} {p : Provider}
    (h : resolution.map f = .found p) : ∃ q, resolution = .found q ∧ f q = p := by
  cases resolution with
  | found q => cases h; exact ⟨q, rfl, rfl⟩
  | missing => cases h
  | ambiguous n => cases h

section

variable (hdeclared : ∀ p ∈ catalog.declared, P p)
  (hdecorated : ∀ ty, ∀ decorator ∈ catalog.decorators.forType ty, ∀ p, P p →
    P (.decorated none decorator p))
  (hcall : ∀ ty, ∀ template ∈ catalog.templates, ∀ p, instantiate ty template = some p → P p)

include hdeclared hdecorated hcall

theorem items_induction {element : Ty} : ∀ p ∈ catalog.items element, P p := by
  intro p hp
  unfold items at hp
  split at hp
  · simp only [Option.mem_toList, Option.map_eq_some_iff] at hp
    obtain ⟨q, hq, rfl⟩ := hp
    cases hfound : catalog.specialize element with
    | found r =>
        rw [hfound] at hq
        cases hq
        exact decorate_induction hdecorated (specialize_induction hcall hfound)
    | missing => rw [hfound] at hq; cases hq
    | ambiguous n => rw [hfound] at hq; cases hq
  · obtain ⟨q, hq, rfl⟩ := List.mem_map.mp hp
    exact decorate_induction hdecorated (hdeclared q (mem_declaredFor hq))

/-- What holds of every declared provider and of every one made up for a type, and is kept by the
decorators declared, holds of every provider found. -/
theorem resolve_induction
    (harray : ∀ ty element items, (∀ p ∈ items, P p) → P (.array ty element items))
    (hdelegate : ∀ ty result params isAsync, P (.delegate ty result params isAsync))
    (howned : ∀ ty value isAsync, P (.owned ty value isAsync)) {ty : Ty} {p : Provider}
    (h : catalog.resolve ty = .found p) : P p := by
  unfold resolve at h
  split at h
  · obtain ⟨q, hq, rfl⟩ := map_found h
    refine decorate_induction hdecorated ?_
    unfold synthesize at hq
    split at hq
    · cases hq
      exact harray _ _ _ (items_induction hdeclared hdecorated hcall)
    · cases hq
      exact hdelegate _ _ _ _
    · cases hq
      exact howned _ _ _
    · exact specialize_induction hcall hq
  · obtain ⟨q, hq, rfl⟩ := map_found h
    exact decorate_induction hdecorated (hdeclared q (mem_declaredFor (ofList_found hq)))

end

end Catalog

/-! ### The decorators of a type -/

namespace DecoratorIndex

variable {d added : Decorator} {shape : Ty.Shape} {shapes : List (Ty.Shape × List Decorator)}

/-- The decorator is filed somewhere. -/
def Holds (index : DecoratorIndex) (d : Decorator) : Prop :=
  d ∈ index.bare ∨ ∃ entry ∈ index.shapes, d ∈ entry.2

theorem eq_or_filed_of_file (h : ∃ entry ∈ file shape added shapes, d ∈ entry.2) :
    d = added ∨ ∃ entry ∈ shapes, d ∈ entry.2 := by
  obtain ⟨entry, hentry, hd⟩ := h
  induction shapes with
  | nil =>
      obtain rfl := List.mem_singleton.mp hentry
      exact .inl (List.mem_singleton.mp hd)
  | cons first rest ih =>
      unfold file at hentry
      split at hentry
      · rcases List.mem_cons.mp hentry with rfl | hentry
        · rcases List.mem_append.mp hd with hd | hd
          · exact .inr ⟨first, List.mem_cons_self, hd⟩
          · exact .inl (List.mem_singleton.mp hd)
        · exact .inr ⟨entry, List.mem_cons_of_mem _ hentry, hd⟩
      · rcases List.mem_cons.mp hentry with rfl | hentry
        · exact .inr ⟨_, List.mem_cons_self, hd⟩
        · refine (ih hentry).imp_right ?_
          rintro ⟨entry', hentry', hd'⟩
          exact ⟨entry', List.mem_cons_of_mem _ hentry', hd'⟩

theorem Holds.of_insert {index : DecoratorIndex} (h : (index.insert added).Holds d) :
    index.Holds d ∨ d = added := by
  unfold insert at h
  split at h
  · rcases h with h | h
    · exact (List.mem_append.mp h).imp .inl List.mem_singleton.mp
    · exact .inl (.inr h)
  · rcases h with h | h
    · exact .inl (.inl h)
    · exact (eq_or_filed_of_file h).symm.imp_left .inr

theorem Holds.of_ofList {decorators : List Decorator} (h : (ofList decorators).Holds d) :
    d ∈ decorators := by
  have hfold : ∀ (rest : List Decorator) (index : DecoratorIndex),
      (rest.foldl insert index).Holds d → index.Holds d ∨ d ∈ rest := by
    intro rest
    induction rest with
    | nil => exact fun _ h => .inl h
    | cons first rest ih =>
        intro index h
        rcases ih _ h with h | h
        · exact h.of_insert.imp_right fun heq => List.mem_cons.mpr (.inl heq)
        · exact .inr (List.mem_cons_of_mem _ h)
  refine (hfold decorators empty h).resolve_left ?_
  rintro (h | ⟨_, h, -⟩) <;> cases h

theorem holds_of_mem_candidates {index : DecoratorIndex} {ty : Ty} (h : d ∈ index.candidates ty) :
    index.Holds d := by
  rcases List.mem_append.mp h with h | h
  · unfold ofShape at h
    cases hfind : index.shapes.find? fun entry => entry.1 = ty.shape with
    | none =>
        rw [hfind] at h
        cases h
    | some entry =>
        rw [hfind] at h
        exact .inr ⟨entry, List.mem_of_find?_eq_some hfind, h⟩
  · exact .inl h

/-- A decorator that applies to a type is a declared one, fitted to it. -/
theorem exists_of_mem_forType {decorators : List Decorator} {ty : Ty}
    (h : d ∈ (ofList decorators).forType ty) :
    ∃ declared ∈ decorators, declared.specialize ty = some d := by
  obtain ⟨declared, hmem, hspecialized⟩ := List.mem_filterMap.mp h
  exact ⟨declared, (holds_of_mem_candidates hmem).of_ofList, hspecialized⟩

end DecoratorIndex

/-! ### Dependencies -/

/-- The providers that a provider carries along and asks for itself. -/
def Provider.parts : Provider → List Provider
  | .factory _ _ maker _ _ => [maker]
  | .decorated _ _ inner | .forwarded _ inner => [inner]
  | .array _ _ items => items
  | .construct .. | .delegate .. | .parameter .. | .call .. | .held _ | .owned .. => []

/-- A dependency is resolved in the environment, or is a part of the provider. -/
theorem Environment.requests_provider {env : Environment} {p q : Provider} {r : Request}
    (hr : r ∈ env.requests p) (hq : r.provider? = some q) :
    env.lookup r.ty = some q ∨ q ∈ p.parts := by
  cases p <;> simp only [requests, List.mem_map, List.mem_singleton, List.not_mem_nil] at hr
  case construct site rule =>
      obtain ⟨param, _, rfl⟩ := hr
      exact .inl hq
  case call site rule =>
      obtain ⟨param, _, rfl⟩ := hr
      exact .inl hq
  case decorated site decorator inner =>
      obtain ⟨param, _, rfl⟩ := hr
      unfold decoratorRequest at hq ⊢
      split at hq
      · cases hq
        exact .inr (by simp [Provider.parts])
      · rename_i hslot
        rw [if_neg hslot]
        exact .inl hq
  case factory site product maker lifetime isAsync =>
      subst hr
      cases hq
      exact .inr (by simp [Provider.parts])
  case forwarded ty inner =>
      subst hr
      cases hq
      exact .inr (by simp [Provider.parts])
  case delegate ty result params isAsync =>
      subst hr
      exact .inl hq
  case owned ty value isAsync =>
      subst hr
      exact .inl hq
  case array ty element items =>
      obtain ⟨item, hitem, rfl⟩ := hr
      cases hq
      exact .inr hitem

/-- What an environment finds comes from a frame or from the catalog. -/
theorem Environment.lookup_cases {env : Environment} {ty : Ty} {p : Provider}
    (h : env.lookup ty = some p) :
    (∃ frame ∈ env.frames, ∃ entry ∈ frame, entry.2 = p) ∨ env.catalog.resolve ty = .found p := by
  unfold lookup resolve at h
  split at h
  · rename_i q hq
    cases h
    obtain ⟨frame, hframe, hfind⟩ := List.exists_of_findSome?_eq_some hq
    obtain ⟨entry, hentry, rfl⟩ := Option.map_eq_some_iff.mp hfind
    exact .inl ⟨frame, hframe, entry, List.mem_of_find?_eq_some hentry, rfl⟩
  · right
    cases hresolve : env.catalog.resolve ty with
    | found q => rw [hresolve] at h; cases h; rfl
    | missing => rw [hresolve] at h; cases h
    | ambiguous n => rw [hresolve] at h; cases h

/-- Whether a provider is met at the container, or its dependencies are. -/
def Environment.isNear (env : Environment) (p : Provider) : Bool :=
  env.isContainer || (env.enter p).isContainer

end Wiring
