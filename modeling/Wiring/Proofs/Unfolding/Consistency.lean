import Mathlib.Data.List.Nodup
import Wiring.Proofs.Unfolding.Basic

/-!
# Containers whose providers agree

When are providers of one identity alike? Identity leaves out the constructor of a value, the maker of
a factory's product and whether a function suspends. A container is consistent if its declarations
do not make use of that freedom; then no two providers that resolution ever finds do.

* `Catalog.Yields` — the providers that resolution can find in the bodies of a container.
* `Catalog.Consistent` — declarations of one identity are alike.
* `Catalog.Consistent.coherent` — then everything found is.
* `Catalog.Consistent.of_flat` — declarations of different identities are consistent.
-/

namespace Wiring

theorem Provider.Holds.trans {p q r : Provider} (h : p.Holds q) (hq : q.Holds r) : p.Holds r := by
  induction h with
  | refl _ => exact hq
  | part hpart _ ih => exact .part hpart (ih hq)

/-- A provider is declared, or is held within a declared one. -/
def Catalog.Declares (catalog : Catalog) (p : Provider) : Prop :=
  ∃ d ∈ catalog.declared, d.Holds p

/-- The providers that resolution can find: declared ones and their parts, parameters, and what is
made up on lookup. -/
inductive Catalog.Yields (catalog : Catalog) : Provider → Prop
  | declared {p : Provider} (h : catalog.Declares p) : Yields catalog p
  | parameter (param : Parameter) (name : String) (depth : Nat) :
      Yields catalog (.parameter param name depth)
  | call {ty : Ty} {template : FactoryCall} {p : Provider} (htemplate : template ∈ catalog.templates)
      (h : Catalog.instantiate ty template = some p) : Yields catalog p
  | array (element : Ty) :
      Yields catalog (.array (.array element) element (catalog.items element))
  | delegate (params : List Ty) (result : Ty) (isAsync : Bool) :
      Yields catalog
        (.delegate (.delegate params result isAsync) result (Catalog.delegateParams params) isAsync)
  | owned (value : Ty) (isAsync : Bool) :
      Yields catalog (.owned (.owned value isAsync) value isAsync)
  | decorated (decorator : Decorator) {p : Provider} (inner : Yields catalog p) :
      Yields catalog (.decorated none decorator p)

namespace Catalog

variable {catalog : Catalog} {ty : Ty} {p q : Provider}

theorem Yields.decorate (h : catalog.Yields p) : catalog.Yields (catalog.decorate p) :=
  decorate_induction (fun _ decorator _ _ => .decorated decorator) h

theorem Yields.of_declared (h : p ∈ catalog.declared) : catalog.Yields p :=
  .declared ⟨p, h, .refl p⟩

theorem Yields.of_specialize (h : catalog.specialize ty = .found p) : catalog.Yields p := by
  obtain ⟨template, htemplate, hinstance⟩ := List.mem_filterMap.mp (ofList_found h)
  exact .call htemplate hinstance

theorem Yields.of_items {element : Ty} (h : p ∈ catalog.items element) : catalog.Yields p := by
  unfold items at h
  split at h
  · simp only [Option.mem_toList, Option.map_eq_some_iff] at h
    obtain ⟨q, hq, rfl⟩ := h
    cases hfound : catalog.specialize element with
    | found r =>
        rw [hfound] at hq
        cases hq
        exact (Yields.of_specialize hfound).decorate
    | missing => rw [hfound] at hq; cases hq
    | ambiguous n => rw [hfound] at hq; cases hq
  · obtain ⟨q, hq, rfl⟩ := List.mem_map.mp h
    exact (Yields.of_declared (mem_declaredFor hq)).decorate

theorem Yields.of_resolve (h : catalog.resolve ty = .found p) : catalog.Yields p := by
  unfold resolve at h
  split at h
  · obtain ⟨q, hq, rfl⟩ := map_found h
    refine Yields.decorate ?_
    unfold synthesize at hq
    split at hq
    · cases hq
      exact .array _
    · cases hq
      exact .delegate _ _ _
    · cases hq
      exact .owned _ _
    · exact .of_specialize hq
  · obtain ⟨q, hq, rfl⟩ := map_found h
    exact (Yields.of_declared (mem_declaredFor (ofList_found hq))).decorate

theorem Declares.part (h : catalog.Declares p) (hq : q ∈ p.parts) : catalog.Declares q :=
  let ⟨d, hd, hholds⟩ := h
  ⟨d, hd, hholds.trans (.part hq (.refl q))⟩

theorem instantiate_eq {template : FactoryCall} (h : instantiate ty template = some p) :
    ∃ bindings product, p = .call none { template with
      method := template.method.substitute bindings
      product := product
      isTemplate := false } := by
  obtain ⟨bindings, _, rfl⟩ := Option.map_eq_some_iff.mp h
  exact ⟨bindings, ty, rfl⟩

theorem Yields.part (h : catalog.Yields p) (hq : q ∈ p.parts) : catalog.Yields q := by
  cases h with
  | declared h => exact .declared (h.part hq)
  | parameter param name depth => cases hq
  | call _ h =>
      obtain ⟨bindings, product, rfl⟩ := instantiate_eq h
      cases hq
  | array element => exact .of_items hq
  | delegate params result isAsync => cases hq
  | owned value isAsync => cases hq
  | decorated decorator inner =>
      obtain rfl := List.mem_singleton.mp hq
      exact inner

end Catalog

/-! ### Everything below a root -/

/-- An environment whose frames bind parameters only. -/
def Environment.BindsParameters (env : Environment) : Prop :=
  ∀ frame ∈ env.frames, ∀ entry ∈ frame, entry.2.IsParameter

namespace Environment.BindsParameters

variable {env : Environment} {p : Provider}

theorem root (env : Environment) : env.root.BindsParameters :=
  fun _ hmem => by cases hmem

theorem push (h : env.BindsParameters) {frame : Frame}
    (hframe : ∀ entry ∈ frame, entry.2.IsParameter) : (env.push frame).BindsParameters := by
  intro frame' hmem
  rcases List.mem_cons.mp hmem with rfl | hmem
  · exact hframe
  · exact h frame' hmem

theorem enter (h : env.BindsParameters) (p : Provider) : (env.enter p).BindsParameters := by
  unfold Environment.enter
  split
  · refine h.push fun entry hentry => ?_
    obtain ⟨param, name, heq, -⟩ := Frame.mem_ofParams hentry
    exact ⟨param, name, _, heq⟩
  · exact h.push fun _ hmem => by cases hmem
  · split
    · exact root env
    · exact h

theorem lookup_cases (h : env.BindsParameters) {ty : Ty} (hlookup : env.lookup ty = some p) :
    (∃ param name depth, p = .parameter param name depth) ∨ env.catalog.resolve ty = .found p := by
  refine (Environment.lookup_cases hlookup).imp_left ?_
  rintro ⟨frame, hframe, entry, hentry, rfl⟩
  exact h frame hframe entry hentry

end Environment.BindsParameters

/-- If all parameters and what resolution finds are among the providers, so is what is found. -/
theorem Environment.BindsParameters.among_of_lookup {env : Environment} {among : Provider → Prop}
    (h : env.BindsParameters) (hparameter : ∀ param name depth, among (.parameter param name depth))
    (hresolve : ∀ ty p, env.catalog.resolve ty = .found p → among p) {ty : Ty} {p : Provider}
    (hlookup : env.lookup ty = some p) : among p := by
  rcases h.lookup_cases hlookup with ⟨param, name, depth, rfl⟩ | hfound
  · exact hparameter param name depth
  · exact hresolve ty p hfound

/-- If parts of the providers are among them too, then so is everything below a place where the frames
bind parameters and what is requested is among them. -/
theorem Place.within_of_bindsParameters {among : Provider → Prop} {x : Place}
    (hparameter : ∀ param name depth, among (.parameter param name depth))
    (hresolve : ∀ ty p, x.env.catalog.resolve ty = .found p → among p)
    (hpart : ∀ p q, among p → q ∈ p.parts → among q) (hframes : x.env.BindsParameters)
    (hx : ∀ p, x.request.provider? = some p → among p) : x.Within among := by
  have hplace : ∀ y, x.Leads y → y.env.BindsParameters ∧ y.env.catalog = x.env.catalog ∧
      ∀ p, y.request.provider? = some p → among p := by
    intro y hy
    induction hy with
    | refl => exact ⟨hframes, rfl, hx⟩
    | tail _ hstep ih =>
        obtain ⟨hframes, hcatalog, hamong⟩ := ih
        obtain ⟨hprovider, hr⟩ := hstep
        rename_i q r
        have hcatalog' := (Environment.catalog_enter _ q).trans hcatalog
        refine ⟨hframes.enter q, hcatalog', fun p hp => ?_⟩
        rcases Environment.requests_provider hr hp with hfound | hheld
        · exact (hframes.enter q).among_of_lookup hparameter (hcatalog' ▸ hresolve) hfound
        · exact hpart q p (hamong q hprovider) hheld
  exact fun y hy => (hplace y hy).2.2

/-- Everything below a root is among them, then. -/
theorem Place.within_of_closed {env : Environment} {among : Provider → Prop}
    (hparameter : ∀ param name depth, among (.parameter param name depth))
    (hresolve : ∀ ty p, env.catalog.resolve ty = .found p → among p)
    (hpart : ∀ p q, among p → q ∈ p.parts → among q) (ty : Ty) (isAsync : Bool) :
    (Place.atRoot env ty isAsync).Within among :=
  within_of_bindsParameters hparameter hresolve hpart (.root env) fun _ hp =>
    (Environment.BindsParameters.root env).among_of_lookup hparameter hresolve hp

/-- Below a root there is nothing but what resolution can find. -/
theorem Place.within_yields (env : Environment) (ty : Ty) (isAsync : Bool) :
    (Place.atRoot env ty isAsync).Within env.catalog.Yields :=
  Place.within_of_closed .parameter (fun _ _ => .of_resolve) (fun _ _ => .part) ty isAsync

/-- Where the parameters of delegates are in scope anyway, there are only known providers below a known
one. -/
theorem Place.known_of_leads {admitted scope : String → Prop} {x y : Place}
    (hscope : ∀ name, IsParameterName name → scope name) (henv : x.env.Knows admitted scope)
    (hx : ∀ p, x.request.provider? = some p → Known admitted scope p) (h : x.Leads y) :
    y.env.Knows admitted scope ∧ ∀ p, y.request.provider? = some p → Known admitted scope p := by
  induction h with
  | refl => exact ⟨henv, hx⟩
  | tail _ hstep ih =>
      obtain ⟨hknows, hprovider⟩ := ih
      obtain ⟨hp, hr⟩ := hstep
      rename_i p _
      have hinside := hknows.enter_closed hscope p
      exact ⟨hinside, fun q hq => hinside.requests (hprovider _ hp) hr hq⟩

/-! ### Consistency -/

namespace Provider

theorem Alike.refl (p : Provider) : p.Alike p :=
  ⟨rfl, rfl, fun _ => rfl, fun _ => rfl⟩

/-- Whether a provider of this identity is made up on lookup, if nobody declares one. -/
def Identity.isMadeUp : Identity → Bool
  | .array _ | .delegate _ | .owned _ => true
  | _ => false

/-- Decorated providers of one identity are alike, whatever they wrap. -/
theorem Alike.of_decorated {site site' : Option Nat} {decorator decorator' : Decorator}
    {p q : Provider}
    (h : (Provider.decorated site decorator p).identity = (decorated site' decorator' q).identity) :
    (Provider.decorated site decorator p).Alike (decorated site' decorator' q) := by
  have hlifetime : p.lifetime = q.lifetime := by
    have := congrArg Identity.lifetime h
    rwa [lifetime_identity, lifetime_identity] at this
  simp only [Provider.identity, Identity.decorated.injEq] at h
  obtain ⟨rfl, hinner⟩ := h
  -- The decorators are the same; where they ask for what they wrap, only its identity shows.
  refine ⟨by rw [Provider.identity, Provider.identity, hinner], rfl, fun env => ?_, fun env => ?_⟩
  · change (if p.lifetime = .single then _ else _) = if q.lifetime = .single then _ else _
    rw [hlifetime]
  · simp only [Environment.requests, List.map_map]
    refine List.map_congr_left fun param _ => ?_
    simp only [Function.comp_apply, Environment.decoratorRequest]
    split
    · simp [Request.key, hinner]
    · rfl

/-- Forwarded providers of one identity are alike, whatever they forward to. -/
theorem Alike.of_forwarded {ty ty' : Ty} {p q : Provider}
    (h : (Provider.forwarded ty p).identity = (forwarded ty' q).identity) :
    (Provider.forwarded ty p).Alike (forwarded ty' q) := by
  have hlifetime : p.lifetime = q.lifetime := by
    have := congrArg Identity.lifetime h
    rwa [lifetime_identity, lifetime_identity] at this
  refine ⟨h, rfl, fun env => ?_, fun env => ?_⟩
  · change (if p.lifetime = .single then _ else _) = if q.lifetime = .single then _ else _
    rw [hlifetime]
  · simp only [Provider.identity, Identity.forwarded.injEq] at h
    simp [Environment.requests, Environment.given, Request.key, h.2]

/-- Calls of one identity are alike if both suspend or neither does. -/
theorem Alike.of_call {site site' : Option Nat} {rule rule' : FactoryCall}
    (h : (Provider.call site rule).identity = (call site' rule').identity)
    (hasync : rule.isAsync = rule'.isAsync) :
    (Provider.call site rule).Alike (call site' rule') := by
  have hidentity := h
  simp only [Provider.identity, Identity.call.injEq] at h
  refine ⟨hidentity, hasync, fun env => ?_, fun env => ?_⟩
  · change (if rule.lifetime = .single then _ else _) = if rule'.lifetime = .single then _ else _
    rw [h.2]
  · simp only [Environment.requests, h.1]

end Provider

/-- Declarations of one identity are alike, nobody declares what is made up on lookup, and functions
of one name suspend if one of them does. -/
structure Catalog.Consistent (catalog : Catalog) : Prop where
  declared : ∀ p q, catalog.Declares p → catalog.Declares q → p.identity = q.identity → p.Alike q
  madeUp : ∀ p, catalog.Declares p → p.identity.isMadeUp = false
  calls : ∀ template ∈ catalog.templates, ∀ rule,
    (rule ∈ catalog.templates ∨ ∃ site, catalog.Declares (.call site rule)) →
      template.method.name = rule.method.name → template.isAsync = rule.isAsync

namespace Catalog

variable {catalog : Catalog}

/-! What is found under an identity shows where it comes from. -/

theorem Yields.declares_construct {site : Option Nat} {rule : Construction}
    (h : catalog.Yields (.construct site rule)) : catalog.Declares (.construct site rule) := by
  cases h with
  | declared h => exact h
  | call _ h =>
      obtain ⟨bindings, product, heq⟩ := instantiate_eq h
      cases heq

theorem Yields.declares_factory {site : Option Nat} {product : Ty} {maker : Provider}
    {lifetime : Lifetime} {isAsync : Bool}
    (h : catalog.Yields (.factory site product maker lifetime isAsync)) :
    catalog.Declares (.factory site product maker lifetime isAsync) := by
  cases h with
  | declared h => exact h
  | call _ h =>
      obtain ⟨bindings, product, heq⟩ := instantiate_eq h
      cases heq

theorem Yields.eq_array (hmadeUp : ∀ p, catalog.Declares p → p.identity.isMadeUp = false)
    {ty element : Ty} {items : List Provider} (h : catalog.Yields (.array ty element items)) :
    ty = .array element ∧ items = catalog.items element := by
  cases h with
  | declared h => cases hmadeUp _ h
  | call _ h =>
      obtain ⟨bindings, product, heq⟩ := instantiate_eq h
      cases heq
  | array element => exact ⟨rfl, rfl⟩

theorem Yields.eq_delegate (hmadeUp : ∀ p, catalog.Declares p → p.identity.isMadeUp = false)
    {ty result : Ty} {params : List Parameter} {isAsync : Bool}
    (h : catalog.Yields (.delegate ty result params isAsync)) :
    ∃ types, ty = .delegate types result isAsync ∧ params = delegateParams types := by
  cases h with
  | declared h => cases hmadeUp _ h
  | call _ h =>
      obtain ⟨bindings, product, heq⟩ := instantiate_eq h
      cases heq
  | delegate types result isAsync => exact ⟨types, rfl, rfl⟩

theorem Yields.eq_owned (hmadeUp : ∀ p, catalog.Declares p → p.identity.isMadeUp = false)
    {ty value : Ty} {isAsync : Bool} (h : catalog.Yields (.owned ty value isAsync)) :
    ty = .owned value isAsync := by
  cases h with
  | declared h => cases hmadeUp _ h
  | call _ h =>
      obtain ⟨bindings, product, heq⟩ := instantiate_eq h
      cases heq
  | owned value isAsync => rfl

theorem Yields.call_cases {site : Option Nat} {rule : FactoryCall}
    (h : catalog.Yields (.call site rule)) :
    catalog.Declares (.call site rule) ∨
      ∃ template ∈ catalog.templates, template.method.name = rule.method.name ∧
        template.isAsync = rule.isAsync := by
  cases h with
  | declared h => exact .inl h
  | call htemplate h =>
      obtain ⟨bindings, product, heq⟩ := instantiate_eq h
      cases heq
      exact .inr ⟨_, htemplate, rfl, rfl⟩

theorem Consistent.calls_alike (h : catalog.Consistent) {site site' : Option Nat}
    {rule rule' : FactoryCall} (hp : catalog.Yields (.call site rule))
    (hq : catalog.Yields (.call site' rule'))
    (hidentity : (Provider.call site rule).identity = (Provider.call site' rule').identity) :
    (Provider.call site rule).Alike (.call site' rule') := by
  have hname : rule.method.name = rule'.method.name := by
    simp only [Provider.identity, Provider.Identity.call.injEq] at hidentity
    rw [hidentity.1]
  -- Two declarations, a declaration and a template on either side, two templates.
  rcases hp.call_cases with hp | ⟨t, ht, htname, htasync⟩ <;>
    rcases hq.call_cases with hq | ⟨u, hu, huname, huasync⟩
  · exact h.declared _ _ hp hq hidentity
  · refine .of_call hidentity (Eq.trans ?_ huasync)
    exact (h.calls u hu rule (.inr ⟨_, hp⟩) (huname.trans hname.symm)).symm
  · refine .of_call hidentity (htasync.symm.trans ?_)
    exact h.calls t ht rule' (.inr ⟨_, hq⟩) (htname.trans hname)
  · refine .of_call hidentity (htasync.symm.trans (Eq.trans ?_ huasync))
    exact h.calls t ht u (.inl hu) (htname.trans (hname.trans huname.symm))

/-- In a consistent container everything found under one identity is alike. The identity leaves out what
a declaration says beside it and how a provider was made up; where declarations of one identity are
alike, so is what is found. -/
theorem Consistent.coherent (h : catalog.Consistent) : Coherent catalog.Yields := by
  intro p q hp hq hidentity
  -- Providers of one identity are of one kind; what their identity leaves out is read off the
  -- declaration or off how they were made up.
  cases p with
  | construct site rule =>
      cases q with
      | construct site' rule' =>
          exact h.declared _ _ hp.declares_construct hq.declares_construct hidentity
      | _ => cases hidentity
  | factory site product maker lifetime isAsync =>
      cases q with
      | factory site' product' maker' lifetime' isAsync' =>
          exact h.declared _ _ hp.declares_factory hq.declares_factory hidentity
      | _ => cases hidentity
  | delegate ty result params isAsync =>
      cases q with
      | delegate ty' result' params' isAsync' =>
          obtain ⟨types, rfl, rfl⟩ := hp.eq_delegate h.madeUp
          obtain ⟨types', rfl, rfl⟩ := hq.eq_delegate h.madeUp
          cases hidentity
          exact .refl _
      | _ => cases hidentity
  | parameter param name depth =>
      cases q with
      | parameter param' name' depth' =>
          cases hidentity
          exact .refl _
      | _ => cases hidentity
  | call site rule =>
      cases q with
      | call site' rule' => exact h.calls_alike hp hq hidentity
      | _ => cases hidentity
  | held member =>
      cases q with
      | held member' =>
          cases hidentity
          exact .refl _
      | _ => cases hidentity
  | array ty element items =>
      cases q with
      | array ty' element' items' =>
          obtain ⟨rfl, rfl⟩ := hp.eq_array h.madeUp
          obtain ⟨rfl, rfl⟩ := hq.eq_array h.madeUp
          cases hidentity
          exact .refl _
      | _ => cases hidentity
  | decorated site decorator inner =>
      cases q with
      | decorated site' decorator' inner' => exact .of_decorated hidentity
      | _ => cases hidentity
  | forwarded ty inner =>
      cases q with
      | forwarded ty' inner' => exact .of_forwarded hidentity
      | _ => cases hidentity
  | owned ty value isAsync =>
      cases q with
      | owned ty' value' isAsync' =>
          obtain rfl := hp.eq_owned h.madeUp
          obtain rfl := hq.eq_owned h.madeUp
          cases hidentity
          exact .refl _
      | _ => cases hidentity

/-- In a consistent container everything below a root is alike where it has one identity. -/
theorem Consistent.coherent_atRoot {env : Environment} (h : env.catalog.Consistent) (ty : Ty)
    (isAsync : Bool) : Coherent (Place.atRoot env ty isAsync).Meets := by
  refine h.coherent.mono ?_
  rintro p ⟨x, hx, hp⟩
  exact Place.within_yields env ty isAsync x hx p hp

/-- Declarations of different identities, none of them with parts, are consistent if there are no
templates. -/
theorem Consistent.of_flat
    (hflat : catalog.declared.all (fun p => p.parts.isEmpty && !p.identity.isMadeUp) = true)
    (hdistinct : (catalog.declared.map Provider.identity).Nodup)
    (htemplates : catalog.templates = []) : catalog.Consistent := by
  have hdeclared : ∀ p, catalog.Declares p → p ∈ catalog.declared := by
    rintro p ⟨d, hd, hholds⟩
    cases hholds with
    | refl => exact hd
    | part hpart _ =>
        have hparts := List.all_eq_true.mp hflat d hd
        simp only [Bool.and_eq_true, List.isEmpty_iff] at hparts
        rw [hparts.1] at hpart
        cases hpart
  refine ⟨fun p q hp hq hidentity => ?_, fun p hp => ?_, ?_⟩
  · obtain rfl := List.inj_on_of_nodup_map hdistinct (hdeclared p hp) (hdeclared q hq) hidentity
    exact .refl p
  · have hmadeUp := List.all_eq_true.mp hflat p (hdeclared p hp)
    simp only [Bool.and_eq_true, Bool.not_eq_true'] at hmadeUp
    exact hmadeUp.2
  · rw [htemplates]
    exact fun _ hmem => by cases hmem

end Catalog

end Wiring
