import Wiring.Proofs.Assembly.Origin
import Wiring.Proofs.Plan.Sharing

/-!
# What plans are about

The providers that the statements of a plan are about, and those that supply the arguments of its
creations, are reached from the provider that was planned for: by going from a provider to its
dependencies, but not into a delegate from within its own body. That goes for the plans of accessors
too.

* `Reach` — the providers that may be met, told apart by where they are met.
* `Plan.IsAbout` — a plan and the bodies in it are about given providers only.
* `Obtains.isAbout`, `Assembles.isAbout` — a plan is about what is reached from its value.
* `planResolution_isAbout`, `planAccessor_isAbout` — and so for plans as a whole.
-/

namespace Wiring

/-! ### What is reached -/

/-- Which providers are met in which environment, with which delegates around. -/
abbrev Reach := Environment → List Provider.Identity → Provider → Prop

namespace Reach

/-- A provider is met somewhere in the container. -/
def Finds (R : Reach) (catalog : Catalog) (p : Provider) : Prop :=
  ∃ env delegates, env.catalog = catalog ∧ R env delegates p

/-- From a provider met one goes on to its dependencies, unless it is a delegate met in its own body.
Singletons are found however far below. -/
structure IsClosed (R : Reach) : Prop where
  below : ∀ {env delegates p r q}, R env delegates p →
    ¬ (p.isDelegate = true ∧ p.identity ∈ delegates) → r ∈ (env.enter p).requests p →
      r.provider? = some q → R (env.enter p) (delegatesBelow p delegates) q
  singleton : ∀ {env delegates p}, R env delegates p → ∀ isAsync,
    (Place.mk env isAsync (Environment.given p)).Within fun q =>
      q.lifetime = .single → R.Finds env.catalog q

/-- What is below a request among the given providers. -/
def within (among : Provider → Prop) : Reach := fun env _ p =>
  ∃ isAsync, (Place.mk env isAsync (Environment.given p)).Within among

theorem isClosed_within (among : Provider → Prop) : (within among).IsClosed := by
  refine ⟨fun hp _ hr hq => ?_, fun hp isAsync x hx q hq _ => ?_⟩
  · obtain ⟨isAsync, hwithin⟩ := hp
    exact ⟨_, (hwithin.next (.intro rfl hr)).given hq⟩
  · obtain ⟨waits, hwithin⟩ := hp
    have hbelow := (hwithin.of_isAsync isAsync).leads hx
    exact ⟨x.env, [], Place.catalog_of_leads hx, x.isAsync, hbelow.given hq⟩

theorem among_of_finds {among : Provider → Prop} {catalog : Catalog} {p : Provider}
    (h : (within among).Finds catalog p) : among p :=
  let ⟨_, _, _, _, hwithin⟩ := h
  hwithin.provider rfl

end Reach

/-! ### What is mentioned -/

/-- The plan and the bodies in it are about the given providers, and so are the requests behind the
arguments of creations; accessors are asked for singletons. The environment is where the plan's value is
requested. -/
inductive Plan.IsAbout (among : Provider → Prop) : Environment → Plan → Prop
  | plan {base : Environment} {plan : Plan}
      (providers : ∀ step ∈ plan.steps, ∀ p, step.statement.provider? = some p → among p)
      (singletons : ∀ step ∈ plan.steps, ∀ name p isAsync,
        step.statement = .single name p isAsync → p.lifetime = .single)
      (arguments : ∀ step ∈ plan.steps, ∀ name p args, step.statement = .create name p args →
        ∀ r ∈ (base.enter p).requests p, ∀ q, r.provider? = some q → among q)
      (bodies : ∀ step ∈ plan.steps, ∀ p body, step.statement.provider? = some p →
        step.statement.body? = some body → Plan.IsAbout among (base.enter p) body) :
      Plan.IsAbout among base plan

/-- The part of one step. -/
structure Step.IsAbout (among : Provider → Prop) (base : Environment) (step : Step) : Prop where
  provider : ∀ p, step.statement.provider? = some p → among p
  singleton : ∀ name p isAsync, step.statement = .single name p isAsync → p.lifetime = .single
  arguments : ∀ name p args, step.statement = .create name p args →
    ∀ r ∈ (base.enter p).requests p, ∀ q, r.provider? = some q → among q
  body : ∀ p body, step.statement.provider? = some p → step.statement.body? = some body →
    body.IsAbout among (base.enter p)

namespace Plan.IsAbout

variable {among : Provider → Prop} {base : Environment} {plan : Plan}

theorem step (h : plan.IsAbout among base) {step : Step} (hstep : step ∈ plan.steps) :
    step.IsAbout among base := by
  cases h with
  | plan providers singletons arguments bodies =>
      exact ⟨providers step hstep, singletons step hstep, arguments step hstep, bodies step hstep⟩

theorem of_steps (h : ∀ step ∈ plan.steps, step.IsAbout among base) : plan.IsAbout among base :=
  .plan (fun step hstep => (h step hstep).provider) (fun step hstep => (h step hstep).singleton)
    (fun step hstep => (h step hstep).arguments) fun step hstep => (h step hstep).body

theorem mono {wider : Provider → Prop} (h : plan.IsAbout among base)
    (hwider : ∀ p, among p → wider p) : plan.IsAbout wider base := by
  induction h with
  | plan providers singletons arguments _ ih =>
      exact .plan (fun step hstep p hp => hwider p (providers step hstep p hp)) singletons
        (fun step hstep name p args heq r hr q hq =>
          hwider q (arguments step hstep name p args heq r hr q hq)) ih

/-- The plans in the tree are about the same providers. -/
theorem within (h : plan.IsAbout among base) {around : List (Plan × Step)} {nested : Plan}
    (hwithin : plan.Within around nested) : nested.IsAbout among (base.within around) := by
  induction hwithin with
  | root => exact h
  | body _ hcarrier hbody ih =>
      obtain ⟨p, hp⟩ := Statement.provider_of_body hbody
      have habout := (ih.step hcarrier).body p _ hp hbody
      simpa [Environment.within, hp] using habout

/-- The accessors asked for anywhere in the tree are those of singletons among the providers. -/
theorem asked (h : plan.IsAbout among base) {step : Step} (hstep : step ∈ plan.tree) {name : String}
    {p : Provider} {isAsync : Bool} (hasks : step.statement = .single name p isAsync) :
    among p ∧ p.lifetime = .single := by
  obtain ⟨around, nested, hwithin, hstep⟩ := Plan.exists_within .root hstep
  have habout := (h.within hwithin).step hstep
  exact ⟨habout.provider p (by rw [hasks]; rfl), habout.singleton name p isAsync hasks⟩

end Plan.IsAbout

/-- The statement neither asks for an accessor, nor creates a value, nor has a body. -/
def Statement.isPlain : Statement → Bool
  | .registry .. | .owned .. | .start .. | .await .. => true
  | .single .. | .create .. | .delegate .. | .ownedFunction .. => false

namespace Assembly

variable {among : Provider → Prop} {R : Reach} {base env : Environment} {c : Settings} {scope : Scope}
  {around : List Provider.Identity} {p q target : Provider} {s s' t : State} {isTarget : Bool}
  {r : Request} {ty : Ty}

/-- The delegates whose bodies are around. -/
def Scope.delegates (scope : Scope) : List Provider.Identity :=
  scope.around.map Prod.fst

/-- A delegate that is not at hand is not around. -/
theorem not_around_of_atHand {obtained : List (Provider.Identity × Supply)}
    (h : atHand scope p obtained = none) :
    ¬ (p.isDelegate = true ∧ p.identity ∈ scope.delegates) := by
  rintro ⟨hdelegate, hmem⟩
  obtain ⟨entry, hentry, hidentity⟩ := List.mem_map.mp hmem
  unfold atHand at h
  rw [if_pos hdelegate, Option.or_eq_none_iff, Option.map_eq_none_iff, List.find?_eq_none] at h
  exact h.2 entry hentry (by simpa using hidentity)

/-- Where a provider is asked for in a plan whose value is requested in `base`, inside the given
delegates. Only singletons are asked for elsewhere. -/
structure Reached (R : Reach) (base : Environment) (around : List Provider.Identity)
    (env : Environment) (p : Provider) : Prop where
  catalog : env.catalog = base.catalog
  here : p.lifetime ≠ .single → env = base ∧ R base around p
  single : p.lifetime = .single → R.Finds base.catalog p

namespace Reached

theorem of_here (h : R base around p) : Reached R base around base p :=
  ⟨rfl, fun _ => ⟨rfl, h⟩, fun _ => ⟨base, around, rfl, h⟩⟩

theorem finds (h : Reached R base around env p) : R.Finds base.catalog p := by
  by_cases hsingle : p.lifetime = .single
  · exact h.single hsingle
  · exact ⟨base, around, rfl, (h.here hsingle).2⟩

theorem enter_eq (h : Reached R base around env p) : env.enter p = base.enter p := by
  by_cases hsingle : p.lifetime = .single
  · rw [env.enter_of_single hsingle, base.enter_of_single hsingle, Environment.root,
      Environment.root, h.catalog]
  · rw [(h.here hsingle).1]

/-- The dependencies of a created value are asked for in the same plan, in that of an accessor too. -/
theorem request (hR : R.IsClosed) (h : Reached R base scope.delegates env p)
    (hp : p.isCreated = true) (huses : usesAccessor scope isTarget p = false)
    (hscope : scope.FitsIn base) (hr : r ∈ (env.enter p).requests p) (hq : r.provider? = some q) :
    Reached R base scope.delegates (env.enter p) q := by
  have hdelegate : p.isDelegate = false := by cases p <;> first | rfl | cases hp
  have hinside : ∀ around : List Provider.Identity,
      ¬ (p.isDelegate = true ∧ p.identity ∈ around) := fun _ h => by
    rw [hdelegate] at h
    exact Bool.noConfusion h.1
  by_cases hsingle : p.lifetime = .single
  · -- Met anywhere in the container, a singleton has its dependencies at the container.
    obtain ⟨env', around', hcatalog, hmet⟩ := h.single hsingle
    have henter : env.enter p = env'.enter p := by
      rw [env.enter_of_single hsingle, env'.enter_of_single hsingle, Environment.root,
        Environment.root, h.catalog, hcatalog]
    rw [henter] at hr ⊢
    have hbelow := hR.below hmet (hinside _) hr hq
    rw [delegatesBelow, if_pos hsingle, if_neg (by simp [hdelegate])] at hbelow
    have hcatalog' := (env'.catalog_enter p).trans hcatalog
    refine ⟨hcatalog', fun hqsingle => ?_, fun _ => ⟨_, _, hcatalog', hbelow⟩⟩
    -- Only in the plan of an accessor does a singleton have dependencies of other lifetimes, and that
    -- plan is at the container with nothing around it.
    rcases hscope with hscope | ⟨hcontainer, haround⟩
    · exact absurd (lifetime_of_not_usesAccessor hsingle huses hscope hr hq) hqsingle
    · have hbase : env'.enter p = base := by
        rw [env'.enter_of_single hsingle, Environment.root, hcatalog]
        exact Environment.root_of_isContainer hcontainer
      refine ⟨hbase, ?_⟩
      rw [Scope.delegates, haround, List.map_nil]
      exact hbase ▸ hbelow
  · obtain ⟨rfl, hmet⟩ := h.here hsingle
    have hbelow := hR.below hmet (hinside _) hr hq
    rw [delegatesBelow, if_neg hsingle, if_neg (by simp [hdelegate])] at hbelow
    have henter : env.enter p = env := by rw [enter_of_isCreated hp, if_neg hsingle]
    rw [henter] at hbelow ⊢
    exact .of_here hbelow

/-- The value of a body is asked for in a plan of its own. -/
theorem body (hR : R.IsClosed) (h : Reached R base around env p) (hp : p.HasBody ty)
    (hinside : ¬ (p.isDelegate = true ∧ p.identity ∈ around))
    (hlookup : (env.enter p).lookup ty = some target) :
    R (base.enter p) (delegatesBelow p around) target := by
  obtain ⟨rfl, hmet⟩ := h.here hp.not_single
  exact hR.below hmet hinside (hp.request_mem _) hlookup

/-- The singletons ahead of a delegate are found below it. -/
theorem ahead {isAsync : Bool} {ahead : List Provider} (hR : R.IsClosed)
    (h : Reached R base around env p) (hp : p.HasBody ty)
    (hhoists : Hoists c scope env p isAsync s ahead s') :
    ∀ r ∈ ahead.map Environment.given, ∀ q, r.provider? = some q →
      Reached R base around env q := by
  refine forall_given fun q hq => ?_
  obtain ⟨rfl, hmet⟩ := h.here hp.not_single
  obtain ⟨answers, hahead⟩ := hhoists.found hq
  obtain ⟨hsingle, env', isAsync', -, hbelow⟩ :=
    Survey.singletonsAhead_within (hR.singleton hmet false) hahead q hq
  exact ⟨rfl, fun hnot => absurd hsingle hnot, fun _ => hbelow.provider rfl hsingle⟩

end Reached

/-- The steps so far are about the given providers. -/
def State.IsAbout (among : Provider → Prop) (base : Environment) (s : State) : Prop :=
  ∀ step ∈ s.steps, step.IsAbout among base

namespace State.IsAbout

theorem congr (h : s.IsAbout among base) (hsteps : s'.steps = s.steps) : s'.IsAbout among base :=
  fun step hstep => h step (hsteps ▸ hstep)

theorem afterStep (h : s.IsAbout among base) {step : Step} (hstep : step.IsAbout among base) :
    (s.afterStep step).IsAbout among base := by
  intro other hmem
  rcases List.mem_append.mp hmem with hmem | hmem
  · exact h other hmem
  · obtain rfl := List.mem_singleton.mp hmem
    exact hstep

/-- One more step with a plain statement. -/
theorem afterPlain (h : s.IsAbout among base) {statement : Statement} {release : Option Release}
    {needs : List Step} {step : Step} (hstep : step = t.draft scope statement release needs)
    (hplain : statement.isPlain = true)
    (hprovider : ∀ p, statement.provider? = some p → among p := by rintro _ ⟨⟩) :
    (s.afterStep step).IsAbout among base := by
  subst hstep
  refine h.afterStep ⟨hprovider, fun name p isAsync heq => ?_, fun name p args heq => ?_,
    fun p body _ hbody => ?_⟩
  · rw [show statement = .single name p isAsync from heq] at hplain
    cases hplain
  · rw [show statement = .create name p args from heq] at hplain
    cases hplain
  · cases statement with
    | delegate => cases hplain
    | ownedFunction => cases hplain
    | _ => cases hbody

/-- One more step that asks for an accessor. -/
theorem afterAsking (h : s.IsAbout among base) {name : String} {isAsync : Bool}
    {release : Option Release} {needs : List Step} {step : Step}
    (hstep : step = t.draft scope (.single name p isAsync) release needs) (hamong : among p)
    (hsingle : p.lifetime = .single) : (s.afterStep step).IsAbout among base := by
  subst hstep
  refine h.afterStep ⟨fun q hq => ?_, fun name' q isAsync' heq => ?_, fun name' q args heq => ?_,
    fun q body _ hbody => ?_⟩
  · cases hq
    exact hamong
  · cases heq
    exact hsingle
  · cases heq
  · cases hbody

/-- One more step around a body. -/
theorem afterBody (h : s.IsAbout among base) {statement : Statement} {release : Option Release}
    {needs : List Step} {step : Step} {body : Plan}
    (hstep : step = t.draft scope statement release needs) (hp : statement.provider? = some p)
    (hbody : statement.body? = some body) (hamong : among p)
    (habout : body.IsAbout among (base.enter p)) : (s.afterStep step).IsAbout among base := by
  subst hstep
  refine h.afterStep ⟨fun q hq => ?_, fun name q isAsync heq => ?_, fun name q args heq => ?_,
    fun q body' hq hbody' => ?_⟩
  · cases hp.symm.trans hq
    exact hamong
  · rw [show statement = .single name q isAsync from heq] at hbody
    cases hbody
  · rw [show statement = .create name q args from heq] at hbody
    cases hbody
  · cases hp.symm.trans hq
    cases hbody.symm.trans hbody'
    exact habout

/-- One more step that creates a value. -/
theorem afterCreate (h : s.IsAbout among base) {name : String} {args : List (Option String)}
    {release : Option Release} {needs : List Step} {step : Step}
    (hstep : step = t.draft scope (.create name p args) release needs) (hamong : among p)
    (hrequests : ∀ r ∈ (base.enter p).requests p, ∀ q, r.provider? = some q → among q) :
    (s.afterStep step).IsAbout among base := by
  subst hstep
  refine h.afterStep ⟨fun q hq => ?_, fun name' q isAsync heq => ?_, fun name' q args' heq => ?_,
    fun q body _ hbody => ?_⟩
  · cases hq
    exact hamong
  · cases heq
  · cases heq
    exact hrequests
  · cases hbody

end State.IsAbout

/-! ### The parts of a derivation -/

theorem AsksAccessor.isAbout {supply : Supply} (h : AsksAccessor c scope env p s supply s')
    (hs : s.IsAbout among base) (hamong : among p) (hsingle : p.lifetime = .single) :
    s'.IsAbout among base := by
  cases h with
  | sync _ ht hasking =>
      subst ht
      exact State.IsAbout.congr
        (State.IsAbout.afterAsking (hs.congr rfl) hasking hamong hsingle) rfl
  | async _ ht hasking hwaiting =>
      subst ht
      have hasked := State.IsAbout.afterAsking (hs.congr rfl) hasking hamong hsingle
      exact State.IsAbout.congr (hasked.afterPlain hwaiting rfl) rfl

theorem CreatesValue.isAbout {name : String} {args : List (Option String)} {needs : List Step}
    {step : Step} (h : CreatesValue scope env p name args needs s step s')
    (hs : s.IsAbout among base) (hamong : among p)
    (hrequests : ∀ r ∈ (base.enter p).requests p, ∀ q, r.provider? = some q → among q) :
    s'.IsAbout among base := by
  cases h with
  | plain _ _ hcreating => exact hs.afterCreate hcreating hamong hrequests
  | awaited _ _ ht hcreating hwaiting =>
      subst ht
      have hcreated := State.IsAbout.afterCreate (hs.congr rfl) hcreating hamong hrequests
      exact hcreated.afterPlain hwaiting rfl
  | initialized _ _ hcreating hstarting =>
      have hcreated := hs.afterCreate hcreating hamong hrequests
      exact hcreated.afterPlain hstarting rfl
  | initializedAwaited _ _ hcreating ht hstarting hwaiting =>
      subst ht
      have hcreated := hs.afterCreate hcreating hamong hrequests
      have hstarted := State.IsAbout.afterPlain (hcreated.congr rfl) hstarting rfl
      exact hstarted.afterPlain hwaiting rfl

theorem EmitsDelegate.isAbout {name : String} {body : Plan} {needs : List Step} {step : Step}
    (h : EmitsDelegate scope p name body needs s step s') (hs : s.IsAbout among base)
    (hamong : among p) (hbody : body.IsAbout among (base.enter p)) : s'.IsAbout among base := by
  cases h with
  | plain _ hcreating => exact hs.afterBody hcreating rfl rfl hamong hbody
  | registered _ hopening hcreating =>
      have hopened := hs.afterPlain hopening rfl
      exact hopened.afterBody hcreating rfl rfl hamong hbody

/-! ### Derivations -/

mutual

/-- Obtaining a value makes steps that are about what is reached from it, whatever is closed under
reaching dependencies and meets every singleton below. -/
theorem Obtains.isAbout {R : Reach} (hR : R.IsClosed) {c : Settings} {scope : Scope}
    {isTarget : Bool} {base env : Environment} {p : Provider} {s s' : State} {supply : Supply} :
    Obtains c scope isTarget env p s supply s' → scope.FitsIn base →
      Reached R base scope.delegates env p → s.IsAbout (R.Finds base.catalog) base →
      s'.IsAbout (R.Finds base.catalog) base
  | .atHand _, _, _, hs | .parameter _, _, _, hs => hs
  | .accessor _ huses hasks, _, hmet, hs =>
      hasks.isAbout hs hmet.finds (lifetime_of_usesAccessor huses)
  | .delegate hp hhand _ hhoists heach hlookup hbody hemits, hscope, hmet, hs => by
      have ht := heach.isAbout hR hscope (hmet.ahead hR (.delegate hp) hhoists)
        (hs.congr hhoists.same.1)
      -- Inside the delegate's body the delegate is one more around.
      have htarget := hmet.body hR (.delegate hp) (not_around_of_atHand hhand) hlookup
      have hinner : delegatesBelow p scope.delegates = p.identity :: scope.delegates := by
        rw [hp]
        rfl
      rw [hinner, ← hmet.enter_eq] at htarget
      have hplan := hbody.isAbout hR (.inl rfl) (.of_here htarget)
      rw [hmet.enter_eq, Environment.catalog_enter] at hplan
      exact (hemits.isAbout (ht.congr hbody.same.1) hmet.finds hplan).congr rfl
  | .ownedAgain _ _ ht _ hstep, _, hmet, hs => by
      subst ht
      exact State.IsAbout.afterPlain (hs.congr rfl) hstep rfl
        (by rintro _ ⟨⟩; exact hmet.finds)
  | .owned (t := t) (v := v) hp _ ht _ hlookup hbody hdefining _ hv hstep, _, hmet, hs => by
      have ht' : t.IsAbout (R.Finds base.catalog) base := hs.congr (by rw [ht]; rfl)
      have htarget := hmet.body hR (.owned hp) (by rw [hp]; rintro ⟨⟨⟩, -⟩) hlookup
      have hinner : delegatesBelow p scope.delegates = scope.delegates := by
        rw [hp]
        rfl
      rw [hinner, ← hmet.enter_eq] at htarget
      have hplan := hbody.isAbout hR (.inl rfl) (.of_here htarget)
      rw [hmet.enter_eq, Environment.catalog_enter] at hplan
      have hdefined := State.IsAbout.afterBody (ht'.congr hbody.same.1) hdefining rfl rfl
        hmet.finds hplan
      have hv' : v.IsAbout (R.Finds base.catalog) base := hdefined.congr (by rw [hv]; rfl)
      exact hv'.afterPlain hstep rfl (by rintro _ ⟨⟩; exact hmet.finds)
  | .value hp _ huses _ heach hcreates, hscope, hmet, hs => by
      have hbelow : ∀ r ∈ (env.enter p).requests p, ∀ q, r.provider? = some q →
          Reached R base scope.delegates (env.enter p) q :=
        fun r hr q hq => hmet.request hR hp huses hscope hr hq
      have ht := heach.isAbout hR hscope hbelow (hs.congr rfl)
      have hcreated := hcreates.isAbout ht hmet.finds fun r hr q hq => by
        rw [← hmet.enter_eq] at hr
        exact (hbelow r hr q hq).finds
      exact hcreated.congr (State.afterValue_steps ..)

/-- Obtaining several values makes steps that are about what is reached from them. -/
theorem ObtainsEach.isAbout {R : Reach} (hR : R.IsClosed) {c : Settings} {scope : Scope}
    {base env : Environment} {requests : List Request} {s s' : State}
    {supplies : List (Option Supply)} :
    ObtainsEach c scope env requests s supplies s' → scope.FitsIn base →
      (∀ r ∈ requests, ∀ q, r.provider? = some q → Reached R base scope.delegates env q) →
      s.IsAbout (R.Finds base.catalog) base → s'.IsAbout (R.Finds base.catalog) base
  | .nil, _, _, hs => hs
  | .supplied hprovider head tail, hscope, hmet, hs =>
      tail.isAbout hR hscope (fun r hr => hmet r (List.mem_cons_of_mem _ hr))
        (head.isAbout hR hscope (hmet _ List.mem_cons_self _ hprovider) hs)
  | .leftOut _ _ tail, hscope, hmet, hs =>
      tail.isAbout hR hscope (fun r hr => hmet r (List.mem_cons_of_mem _ hr)) hs

/-- The plan of a body is about what is reached from its value. -/
theorem Assembles.isAbout {R : Reach} (hR : R.IsClosed) {c : Settings} {scope : Scope}
    {base : Environment} {target : Provider} {known : List (Provider.Identity × Supply)}
    {s s' : State} {plan : Plan} :
    Assembles c scope base target known s plan s' → scope.FitsIn base →
      Reached R base scope.delegates base target → plan.IsAbout (R.Finds base.catalog) base
  | .body hobtains harranges, hscope, hmet => by
      have hs := hobtains.isAbout hR hscope hmet fun _ hmem => by cases hmem
      exact .of_steps fun step hstep => hs step (harranges.perm.subset hstep)

end

end Assembly

section

variable {R : Reach} {config : Config} {trigger : Trigger} {env : Environment} {isAsync : Bool}
  {target : Provider} {plan : Plan}

/-- The plan of a resolution is about what is reached from its value. -/
theorem planResolution_isAbout (hR : R.IsClosed)
    (h : planResolution config trigger env isAsync target = .ok plan) (hmet : R env [] target) :
    plan.IsAbout (R.Finds env.catalog) env := by
  unfold planResolution at h
  obtain ⟨s, hassembles⟩ := Assembly.run_sound h
  exact hassembles.isAbout hR (.inl rfl) (.of_here hmet)

/-- The plan of an accessor is about what is reached from its singleton, wherever that is met. -/
theorem planAccessor_isAbout {asyncRelease : Bool} (hR : R.IsClosed)
    (hcontainer : env.isContainer = true)
    (h : planAccessor config trigger env asyncRelease isAsync target = .ok plan)
    (hsingle : target.lifetime = .single) (hfinds : R.Finds env.catalog target) :
    plan.IsAbout (R.Finds env.catalog) env := by
  unfold planAccessor at h
  obtain ⟨s, hassembles⟩ := Assembly.run_sound h
  exact hassembles.isAbout hR (.inr ⟨hcontainer, rfl⟩)
    ⟨rfl, fun hnot => absurd hsingle hnot, fun _ => hfinds⟩

end

end Wiring
