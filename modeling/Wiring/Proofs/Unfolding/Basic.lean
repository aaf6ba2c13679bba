import Mathlib.Logic.Relation
import Wiring.Proofs.Parameters

/-!
# The unfolding of a container

A `Place` is a request with the environment it is made in and whether waiting is possible there. From
the place of a root, `Place.Next` unfolds everything the root leads to, without any memory. The walks
skip parts of the unfolding; what they skip mirrors what they have seen.

* `Place.Leads`, `Place.LeadsDirectly` — the places below a place, in all or up to the next delegates.
* `Place.IsSound`, `Place.IsAcyclic` — what a check has to find out.
* `Provider.Alike`, `Coherent` — providers of one identity have the same dependencies.
* `Environment.Covers` — one environment finds what another finds, or a parameter.
* `Place.Mirrors`, `Place.Resembles` — what is below one place is matched below another, by
  parameters at the least.
* `Place.Mirrors.leads` — the matching goes all the way down.
-/

namespace Wiring

/-- Whether waiting is possible in the body of a provider that was met where `isAsync` says so. -/
def Provider.waits (isAsync : Bool) : Provider → Bool
  | .delegate _ _ _ own | .owned _ _ own => own
  | _ => isAsync

/-- A request, where it is made: the environment, and whether waiting is possible there. The places
below a root are the unfolding of the dependency graph, in which walks find their way. -/
structure Place where
  env : Environment
  /-- Whether waiting is possible. -/
  isAsync : Bool
  request : Request

namespace Place

/-- The place of a root of a container. -/
def atRoot (env : Environment) (ty : Ty) (isAsync : Bool) : Place :=
  ⟨env.root, isAsync, env.root.request ty⟩

/-- From a place to a dependency of the provider found there. -/
inductive Next (x : Place) : Place → Prop
  | intro {p : Provider} {r : Request} (hprovider : x.request.provider? = some p)
      (hr : r ∈ (x.env.enter p).requests p) :
      Next x ⟨x.env.enter p, p.waits x.isAsync, r⟩

/-- What a place leads to. -/
def Leads : Place → Place → Prop :=
  Relation.ReflTransGen Next

/-- Whether the provider at a place, if there is one, has a property. -/
def Passes (passes : Provider → Prop) (x : Place) : Prop :=
  ∀ p, x.request.provider? = some p → passes p

/-- What a place leads to through providers with a property. -/
def LeadsThrough (passes : Provider → Prop) : Place → Place → Prop :=
  Relation.ReflTransGen fun x y => x.Passes passes ∧ x.Next y

theorem LeadsThrough.leads {passes : Provider → Prop} {x y : Place} (h : x.LeadsThrough passes y) :
    x.Leads y :=
  Relation.ReflTransGen.mono (fun _ _ hstep => hstep.2) _ _ h

/-- All providers below a place are among the given ones. -/
def Within (among : Provider → Prop) (x : Place) : Prop :=
  ∀ y, x.Leads y → ∀ p, y.request.provider? = some p → among p

namespace Within

variable {among : Provider → Prop} {x y : Place} {p : Provider}

theorem provider (h : x.Within among) (hp : x.request.provider? = some p) : among p :=
  h x .refl p hp

theorem leads (h : x.Within among) (hxy : x.Leads y) : y.Within among :=
  fun z hyz => h z (hxy.trans hyz)

theorem next (h : x.Within among) (hxy : x.Next y) : y.Within among :=
  h.leads (.single hxy)

end Within

/-- A provider is found somewhere in the unfolding of a place. -/
def Meets (x : Place) (p : Provider) : Prop :=
  ∃ y, x.Leads y ∧ y.request.provider? = some p

theorem within_meets (x : Place) : x.Within x.Meets :=
  fun y hy _ hp => ⟨y, hy, hp⟩

/-- Nothing is wrong at a place: an optional request may go without a provider, and what takes
waiting for is requested where waiting is possible, or is a delegate. -/
def IsSound (x : Place) : Prop :=
  match x.request.provider? with
  | none => x.request.optional = true
  | some p => p.isAsync = true → x.isAsync = true ∨ p.isDelegate = true

/-- What a place leads to without going into the body of a delegate, in one step or more. -/
def LeadsDirectly : Place → Place → Prop :=
  Relation.TransGen fun x y => x.Passes (fun p => p.isDelegate = false) ∧ x.Next y

theorem LeadsDirectly.leads {x y : Place} (h : x.LeadsDirectly y) : x.Leads y :=
  Relation.ReflTransGen.mono (fun _ _ hstep => hstep.2) _ _ h.to_reflTransGen

/-- Nothing below a place leads directly to a provider of its own identity. -/
def IsAcyclic (root : Place) : Prop :=
  ∀ x y p q, root.Leads x → x.LeadsDirectly y → x.request.provider? = some p →
    y.request.provider? = some q → p.identity ≠ q.identity

/-- Where waiting is possible does not change what is below a place. -/
theorem LeadsThrough.of_isAsync {passes : Provider → Prop} {x y : Place}
    (h : x.LeadsThrough passes y) (isAsync : Bool) :
    ∃ isAsync', LeadsThrough passes ⟨x.env, isAsync, x.request⟩ ⟨y.env, isAsync', y.request⟩ := by
  induction h with
  | refl => exact ⟨isAsync, .refl⟩
  | tail _ hstep ih =>
      obtain ⟨isAsync', hleads⟩ := ih
      obtain ⟨hpass, hprovider, hr⟩ := hstep
      exact ⟨_, hleads.tail ⟨hpass, .intro hprovider hr⟩⟩

theorem leadsThrough_true {x y : Place} (h : x.Leads y) : x.LeadsThrough (fun _ => True) y :=
  Relation.ReflTransGen.mono (fun _ _ hstep => ⟨fun _ _ => trivial, hstep⟩) _ _ h

end Place

/-! ### Providers of one identity -/

/-- What tells a request from others: whether it is optional, and which provider satisfies it. -/
def Request.key (r : Request) : Bool × Option Provider.Identity :=
  (r.optional, r.provider?.map Provider.identity)

/-- Two providers that no walk has to tell apart: they have one identity, request alike, and wait alike.
-/
structure Provider.Alike (p q : Provider) : Prop where
  identity : p.identity = q.identity
  isAsync : p.isAsync = q.isAsync
  enter : ∀ env : Environment, env.enter p = env.enter q
  requests : ∀ env : Environment,
    (env.requests p).map Request.key = (env.requests q).map Request.key

/-- Among the given providers, those of one identity are alike. -/
def Coherent (among : Provider → Prop) : Prop :=
  ∀ p q, among p → among q → p.identity = q.identity → p.Alike q

theorem Coherent.mono {among wider : Provider → Prop} (h : Coherent wider)
    (hwider : ∀ p, among p → wider p) : Coherent among :=
  fun p q hp hq => h p q (hwider p hp) (hwider q hq)

namespace Provider

/-- Whether a provider of this identity is a delegate. -/
def Identity.isDelegate : Identity → Bool
  | .delegate _ => true
  | _ => false

theorem isDelegate_identity (p : Provider) : p.identity.isDelegate = p.isDelegate := by
  cases p <;> rfl

theorem lifetime_eq {p q : Provider} (h : p.identity = q.identity) : p.lifetime = q.lifetime := by
  rw [← lifetime_identity, h, lifetime_identity]

/-- Whether a provider of this identity has a body that decides for itself whether it can wait. -/
def Identity.isBody : Identity → Bool
  | .delegate _ | .owned _ => true
  | _ => false

theorem waits_eq (p : Provider) (isAsync : Bool) :
    p.waits isAsync = if p.identity.isBody then p.isAsync else isAsync := by
  cases p <;> rfl

namespace Alike

variable {p q : Provider}

theorem isDelegate (h : p.Alike q) : p.isDelegate = q.isDelegate := by
  rw [← isDelegate_identity, ← isDelegate_identity, h.identity]

theorem lifetime (h : p.Alike q) : p.lifetime = q.lifetime :=
  lifetime_eq h.identity

theorem waits (h : p.Alike q) (isAsync : Bool) : p.waits isAsync = q.waits isAsync := by
  rw [waits_eq, waits_eq, h.identity, h.isAsync]

theorem request (h : p.Alike q) {env : Environment} {r : Request} (hr : r ∈ env.requests p) :
    ∃ r' ∈ env.requests q, r'.key = r.key := by
  have hkey : r.key ∈ (env.requests q).map Request.key :=
    h.requests env ▸ List.mem_map_of_mem hr
  exact List.mem_map.mp hkey

/-- A request is satisfied by providers of one identity. -/
theorem request_provider (h : p.Alike q) {env : Environment} {r : Request} (hr : r ∈ env.requests p) :
    ∃ r' ∈ env.requests q, r'.provider?.map Provider.identity = r.provider?.map Provider.identity :=
  let ⟨r', hr', hkey⟩ := h.request hr
  ⟨r', hr', congrArg Prod.snd hkey⟩

end Alike

end Provider

/-! ### Frames on top -/

/-- A parameter of a delegate. -/
def Provider.IsParameter (p : Provider) : Prop :=
  ∃ param name depth, p = .parameter param name depth

namespace Frame

theorem find?_ofParams {depth : Nat} {params : List Parameter} {ty : Ty} {p : Provider}
    (h : (ofParams depth params).find? ty = some p) : p.IsParameter := by
  obtain ⟨entry, hentry, rfl⟩ := Option.map_eq_some_iff.mp h
  obtain ⟨param, name, heq, -⟩ := mem_ofParams (List.mem_of_find?_eq_some hentry)
  exact ⟨param, name, depth, heq⟩

theorem any_bind {depth index : Nat} {frame : Frame} {param : Parameter} {ty : Ty} :
    (bind depth frame index param).any (fun entry => entry.1 = ty) =
      (frame.any (fun entry => entry.1 = ty) || decide (param.ty = ty)) := by
  unfold bind
  by_cases hbound : (frame.any fun entry => entry.1 = param.ty) = true
  · rw [if_pos hbound]
    by_cases hty : param.ty = ty
    · subst hty
      simp [hbound]
    · simp [hty]
  · rw [if_neg hbound]
    simp [List.any_append]

/-- A frame binds the types of its parameters, whatever the depth. -/
theorem any_ofParams {depth : Nat} {params : List Parameter} {ty : Ty} :
    (ofParams depth params).any (fun entry => entry.1 = ty) =
      params.any fun param => param.ty = ty := by
  have hfold : ∀ (indexed : List (Parameter × Nat)) (frame : Frame),
      (indexed.foldl (fun frame entry => bind depth frame entry.2 entry.1) frame).any
          (fun entry => entry.1 = ty) =
        (frame.any (fun entry => entry.1 = ty) || indexed.any fun entry => entry.1.ty = ty) := by
    intro indexed
    induction indexed with
    | nil => simp
    | cons first rest ih =>
        intro frame
        rw [List.foldl_cons, ih, any_bind, List.any_cons, Bool.or_assoc]
  unfold ofParams
  rw [hfold, List.any_nil, Bool.false_or]
  have hparams : params.any (fun param => param.ty = ty) =
      (params.zipIdx.map Prod.fst).any fun param => param.ty = ty := by
    rw [List.zipIdx_map_fst]
  rw [hparams, List.any_map]
  rfl

theorem find?_eq_none {frame : Frame} {ty : Ty} :
    frame.find? ty = none ↔ frame.any (fun entry => entry.1 = ty) = false := by
  simp [find?]

end Frame

namespace Environment

theorem lookup_push (env : Environment) (frame : Frame) (ty : Ty) :
    (env.push frame).lookup ty = (frame.find? ty).or (env.lookup ty) := by
  unfold lookup resolve push
  rw [List.findSome?_cons]
  cases frame.find? ty <;> rfl

/-- Everything found in `deep` is found in `env` too, or is a parameter. -/
structure Covers (deep env : Environment) : Prop where
  catalog : deep.catalog = env.catalog
  lookup : ∀ ty, deep.lookup ty = env.lookup ty ∨ ∃ p, deep.lookup ty = some p ∧ p.IsParameter

theorem catalog_enter (env : Environment) (p : Provider) : (env.enter p).catalog = env.catalog := by
  unfold enter
  split
  · rfl
  · rfl
  · split <;> rfl

theorem enter_of_single (env : Environment) {p : Provider} (hp : p.lifetime = .single) :
    env.enter p = env.root := by
  unfold enter
  split
  · cases hp
  · cases hp
  · rw [if_pos hp]

namespace Covers

variable {deep env mid : Environment}

theorem refl (env : Environment) : env.Covers env :=
  ⟨rfl, fun _ => .inl rfl⟩

theorem trans (h : deep.Covers mid) (hmid : mid.Covers env) : deep.Covers env := by
  refine ⟨h.catalog.trans hmid.catalog, fun ty => ?_⟩
  rcases h.lookup ty with heq | hparameter
  · rw [heq]
    exact hmid.lookup ty
  · exact .inr hparameter

/-- Frames of parameters on top change nothing but to more parameters. -/
theorem push (h : deep.Covers env) {frame : Frame}
    (hframe : ∀ ty p, frame.find? ty = some p → p.IsParameter) : (deep.push frame).Covers env := by
  refine ⟨h.catalog, fun ty => ?_⟩
  rw [lookup_push]
  cases hfind : frame.find? ty with
  | none => exact h.lookup ty
  | some p => exact .inr ⟨p, rfl, hframe ty p hfind⟩

/-- Below anything but a singleton an environment stays covered. -/
theorem deeper (h : deep.Covers env) {p : Provider} (hp : p.lifetime ≠ .single) :
    (deep.enter p).Covers env := by
  unfold Environment.enter
  split
  · exact h.push fun _ _ => Frame.find?_ofParams
  · exact h.push fun _ _ hfind => by cases hfind
  · rw [if_neg hp]
    exact h

/-- Two frames that bind the same types, the upper one of parameters. -/
theorem push_push (h : deep.Covers env) {upper lower : Frame}
    (hupper : ∀ ty p, upper.find? ty = some p → p.IsParameter)
    (hsame : ∀ ty, upper.find? ty = none → lower.find? ty = none) :
    (deep.push upper).Covers (env.push lower) := by
  refine ⟨h.catalog, fun ty => ?_⟩
  rw [lookup_push, lookup_push]
  cases hfind : upper.find? ty with
  | none =>
      rw [hsame ty hfind]
      exact h.lookup ty
  | some p => exact .inr ⟨p, rfl, hupper ty p hfind⟩

/-- Entering one provider from both keeps one environment covered by the other. -/
theorem enter (h : deep.Covers env) (p : Provider) : (deep.enter p).Covers (env.enter p) := by
  unfold Environment.enter
  split
  · refine h.push_push (fun _ _ => Frame.find?_ofParams) fun ty hfind => ?_
    rw [Frame.find?_eq_none, Frame.any_ofParams] at hfind ⊢
    exact hfind
  · exact h.push_push (fun _ _ hfind => by cases hfind) fun _ hfind => hfind
  · split
    · rw [root, root, h.catalog]
      exact .refl _
    · exact h

/-- The requests of a provider in a covered environment: the same ones, save for those that a parameter
of the deeper frames answers. -/
theorem request (h : deep.Covers env) {p : Provider} {r : Request} (hr : r ∈ deep.requests p) :
    ∃ r' ∈ env.requests p, r'.optional = r.optional ∧
      (r.provider? = r'.provider? ∨ ∃ q, r.provider? = some q ∧ q.IsParameter) := by
  have hparam : ∀ param : Parameter,
      (deep.paramRequest param).provider? = (env.paramRequest param).provider? ∨
        ∃ q, (deep.paramRequest param).provider? = some q ∧ q.IsParameter :=
    fun param => h.lookup param.ty
  -- Only what is resolved can differ, and then a parameter has come in between.
  cases p <;> simp only [requests, List.mem_map, List.mem_singleton, List.not_mem_nil] at hr ⊢
  case construct site rule =>
      obtain ⟨param, hmem, rfl⟩ := hr
      exact ⟨_, ⟨param, hmem, rfl⟩, rfl, hparam param⟩
  case call site rule =>
      obtain ⟨param, hmem, rfl⟩ := hr
      exact ⟨_, ⟨param, hmem, rfl⟩, rfl, hparam param⟩
  case decorated site decorator inner =>
      obtain ⟨param, hmem, rfl⟩ := hr
      refine ⟨_, ⟨param, hmem, rfl⟩, ?_⟩
      unfold decoratorRequest
      split
      · exact ⟨rfl, .inl rfl⟩
      · exact ⟨rfl, hparam param⟩
  case factory site product maker lifetime isAsync =>
      subst hr
      exact ⟨_, rfl, rfl, .inl rfl⟩
  case forwarded ty inner =>
      subst hr
      exact ⟨_, rfl, rfl, .inl rfl⟩
  case delegate ty result params isAsync =>
      subst hr
      exact ⟨_, rfl, rfl, h.lookup result⟩
  case owned ty value isAsync =>
      subst hr
      exact ⟨_, rfl, rfl, h.lookup value⟩
  case array ty element items =>
      obtain ⟨item, hitem, rfl⟩ := hr
      exact ⟨_, ⟨item, hitem, rfl⟩, rfl, .inl rfl⟩

end Covers

end Environment

/-! ### Places that match -/

namespace Place

/-- The request at `x` is satisfied as the one at `y`, or by a parameter. Whether waiting is possible
agrees too, where that is followed. -/
structure Mirrors (tracked : Bool) (x y : Place) : Prop where
  env : x.env.Covers y.env
  isAsync : tracked = true → x.isAsync = y.isAsync
  optional : x.request.optional = y.request.optional
  provider : x.request.provider?.map Provider.identity = y.request.provider?.map Provider.identity ∨
    ∃ p, x.request.provider? = some p ∧ p.IsParameter

/-- The bodies of the providers at `x` and `y` match: what is below the one place can be followed below
the other. -/
def Resembles (tracked : Bool) (x y : Place) : Prop :=
  ∃ p q, x.request.provider? = some p ∧ y.request.provider? = some q ∧ p.identity = q.identity ∧
    (tracked = true → p.waits x.isAsync = q.waits y.isAsync) ∧
    (x.env.enter p).Covers (y.env.enter q)

variable {tracked : Bool} {among : Provider → Prop} {x y z : Place}

theorem Mirrors.refl (x : Place) : x.Mirrors tracked x :=
  ⟨.refl _, fun _ => rfl, rfl, .inl rfl⟩

/-- A parameter depends on nothing. -/
theorem Next.not_parameter {p : Provider} (h : x.Next y) (hp : x.request.provider? = some p) :
    ¬ p.IsParameter := by
  rintro ⟨param, name, depth, rfl⟩
  obtain ⟨hprovider, hr⟩ := h
  cases hp.symm.trans hprovider
  cases hr

/-- Providers at places that mirror each other are alike. -/
theorem Mirrors.alike (hcoherent : Coherent among) (h : x.Mirrors tracked y)
    (hx : x.Within among) (hy : y.Within among) {p : Provider} (hp : x.request.provider? = some p)
    (hparameter : ¬ p.IsParameter) : ∃ q, y.request.provider? = some q ∧ p.Alike q := by
  rcases h.provider with hidentity | ⟨q, hq, hqparameter⟩
  · rw [hp, Option.map_some] at hidentity
    obtain ⟨q, hq, hsame⟩ := Option.map_eq_some_iff.mp hidentity.symm
    exact ⟨q, hq, hcoherent p q (hx.provider hp) (hy.provider hq) hsame.symm⟩
  · cases hp.symm.trans hq
    exact absurd hqparameter hparameter

/-- Where places mirror each other, bodies match. -/
theorem Mirrors.resembles (hcoherent : Coherent among) (h : x.Mirrors tracked y)
    (hx : x.Within among) (hy : y.Within among) {p : Provider} (hp : x.request.provider? = some p)
    (hparameter : ¬ p.IsParameter) : x.Resembles tracked y := by
  obtain ⟨q, hq, halike⟩ := h.alike hcoherent hx hy hp hparameter
  refine ⟨p, q, hp, hq, halike.identity, fun htracked => ?_, ?_⟩
  · rw [halike.waits, h.isAsync htracked]
  · rw [halike.enter]
    exact h.env.enter q

theorem Resembles.trans (h : x.Resembles tracked y) (hy : y.Resembles tracked z) :
    x.Resembles tracked z := by
  obtain ⟨p, q, hp, hq, hidentity, hwaits, hcovers⟩ := h
  obtain ⟨q', r, hq', hr, hidentity', hwaits', hcovers'⟩ := hy
  cases hq.symm.trans hq'
  exact ⟨p, r, hp, hr, hidentity.trans hidentity',
    fun htracked => (hwaits htracked).trans (hwaits' htracked), hcovers.trans hcovers'⟩

/-- Where bodies match, each dependency mirrors one of the other body. -/
theorem Resembles.next (hcoherent : Coherent among) (h : x.Resembles tracked y)
    (hx : x.Within among) (hy : y.Within among) {x' : Place} (hnext : x.Next x') :
    ∃ y', y.Next y' ∧ x'.Mirrors tracked y' := by
  obtain ⟨p, q, hp, hq, hidentity, hwaits, hcovers⟩ := h
  obtain ⟨hprovider, hr⟩ := hnext
  cases hp.symm.trans hprovider
  have halike := hcoherent p q (hx.provider hp) (hy.provider hq) hidentity
  obtain ⟨r₁, hr₁, hkey⟩ := halike.request hr
  obtain ⟨hoptional, hidentities⟩ := Prod.ext_iff.mp hkey
  obtain ⟨r₂, hr₂, hoptional₂, hprovider₂⟩ := hcovers.request hr₁
  refine ⟨_, .intro hq hr₂, hcovers, hwaits, hoptional.symm.trans hoptional₂.symm, ?_⟩
  rcases hprovider₂ with heq | ⟨q', hq', param, name, depth, rfl⟩
  · exact .inl (hidentities.symm.trans (congrArg (Option.map Provider.identity) heq))
  · -- Only a parameter has the identity of a parameter.
    right
    simp only [Request.key, hq', Option.map_some] at hidentities
    obtain ⟨p', hp', hsame⟩ := Option.map_eq_some_iff.mp hidentities.symm
    refine ⟨p', hp', ?_⟩
    cases p' <;> simp only [Provider.identity] at hsame <;> cases hsame
    exact ⟨_, _, _, rfl⟩

/-- A property of providers that no two alike providers differ in. -/
def Agrees (passes : Provider → Prop) : Prop :=
  ∀ p q : Provider, p.Alike q → passes p → passes q

/-- What a place leads to mirrors what a place leads to that it mirrors. -/
theorem Mirrors.leads (hcoherent : Coherent among) {passes : Provider → Prop}
    (hpasses : Agrees passes) (h : x.Mirrors tracked y) (hx : x.Within among)
    (hy : y.Within among) (hleads : x.LeadsThrough passes z) :
    ∃ z', y.LeadsThrough passes z' ∧ z.Mirrors tracked z' := by
  induction hleads with
  | refl => exact ⟨y, .refl, h⟩
  | @tail b c hxb hstep ih =>
      obtain ⟨b', hyb', hmirrors⟩ := ih
      have hb : b.Within among := hx.leads (LeadsThrough.leads hxb)
      have hb' : b'.Within among := hy.leads hyb'.leads
      obtain ⟨hpass, hnext⟩ := hstep
      obtain ⟨p, hp⟩ : ∃ p, b.request.provider? = some p := by
        cases hnext with
        | intro hprovider _ => exact ⟨_, hprovider⟩
      obtain ⟨q, hq, halike⟩ := hmirrors.alike hcoherent hb hb' hp (hnext.not_parameter hp)
      obtain ⟨c', hc', hcc'⟩ :=
        (hmirrors.resembles hcoherent hb hb' hp (hnext.not_parameter hp)).next hcoherent hb hb' hnext
      refine ⟨c', hyb'.tail ⟨fun q' hq' => ?_, hc'⟩, hcc'⟩
      cases hq.symm.trans hq'
      exact hpasses p q halike (hpass p hp)

end Place

end Wiring
