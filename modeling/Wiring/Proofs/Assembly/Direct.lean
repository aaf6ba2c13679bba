import Wiring.Proofs.Assembly.Calm
import Wiring.Proofs.Assembly.Layout

/-!
# What plans ask for outside the bodies of delegates

What stands in the body of a delegate is asked for when the delegate is called. The rest a plan asks
for as it runs, the bodies of owned values included: those run with it. These singletons are direct
dependencies, met on the way down from the plan's value without entering a delegate. The ones obtained
ahead of a delegate would be an exception, but what is vouched for has none.

* `Plan.askedDirectly` — the singletons that a plan asks for outside the bodies of delegates.
* `Place.NeedsDirectly` — a place leads directly to a provider.
* `Obtains.asksDirectly`, `Assembles.asksDirectly` — a plan asks directly for what its value needs
  directly.
* `planAccessor_asksDirectly` — and so does the plan of an accessor.
-/

namespace Wiring

mutual

/-- The singletons whose accessors a statement asks, itself or in the body of an owned value. -/
def Statement.askedDirectly : Statement → List Provider
  | .single _ p _ => [p]
  | .ownedFunction _ _ _ body => body.askedDirectly
  | .delegate .. | .registry .. | .owned .. | .create .. | .start .. | .await .. => []

/-- The singletons that a plan asks for outside the bodies of delegates. -/
def Plan.askedDirectly : Plan → List Provider
  | ⟨steps, _⟩ => askedDirectlyIn steps

/-- The singletons that steps ask for outside the bodies of delegates. -/
def askedDirectlyIn : List Step → List Provider
  | [] => []
  | ⟨_, statement, _, _, _⟩ :: rest => statement.askedDirectly ++ askedDirectlyIn rest

end

theorem mem_askedDirectlyIn {steps : List Step} {q : Provider} :
    q ∈ askedDirectlyIn steps ↔ ∃ step ∈ steps, q ∈ step.statement.askedDirectly := by
  induction steps with
  | nil => simp [askedDirectlyIn]
  | cons step rest ih =>
      obtain ⟨_, _, _, _, _⟩ := step
      simp [askedDirectlyIn, ih]

/-- A place leads to a provider without entering a delegate. -/
def Place.NeedsDirectly (start : Place) (q : Provider) : Prop :=
  ∃ x, start.LeadsDirectly x ∧ x.request.provider? = some q

namespace Assembly

variable {catalog : Catalog} {among : Provider → Prop} {c : Settings} {scope : Scope} {start : Place}
  {env : Environment} {p q target : Provider} {s s' t u : State}

/-- A provider is found in an environment that the start leads to without entering a delegate, or at
the start itself. -/
def FoundDirectly (start : Place) (env : Environment) (p : Provider) : Prop :=
  ∃ x, start.LeadsThrough (fun p => p.isDelegate = false) x ∧ x.env = env ∧
    x.request.provider? = some p

/-- From there one goes on to the dependencies of anything but a delegate. -/
theorem FoundDirectly.next (h : FoundDirectly start env p) (hdelegate : p.isDelegate = false)
    {r : Request} (hr : r ∈ (env.enter p).requests p) (hq : r.provider? = some q) :
    FoundDirectly start (env.enter p) q ∧ start.NeedsDirectly q := by
  obtain ⟨x, hleads, rfl, hp⟩ := h
  have hpass : x.Passes fun p => p.isDelegate = false := by
    intro p' hp'
    cases hp.symm.trans hp'
    exact hdelegate
  have hstep : x.Passes (fun p => p.isDelegate = false) ∧
      x.Next ⟨x.env.enter p, p.waits x.isAsync, r⟩ := ⟨hpass, .intro hp hr⟩
  exact ⟨⟨_, hleads.tail hstep, rfl, hq⟩, ⟨_, .tail' hleads hstep, hq⟩⟩

/-- Outside the bodies of delegates the steps so far ask for direct dependencies of the start. -/
def State.AsksDirectly (start : Place) (s : State) : Prop :=
  ∀ step ∈ s.steps, ∀ q ∈ step.statement.askedDirectly, start.NeedsDirectly q

namespace State.AsksDirectly

theorem congr (h : s.AsksDirectly start) (hsteps : s'.steps = s.steps) : s'.AsksDirectly start :=
  fun step hstep => h step (hsteps ▸ hstep)

/-- One more step, which asks for nothing else. -/
theorem afterStep (h : s.AsksDirectly start) {statement : Statement} {release : Option Release}
    {needs : List Step} {step : Step} (hstep : step = t.draft scope statement release needs)
    (hasks : ∀ q ∈ statement.askedDirectly, start.NeedsDirectly q) :
    (s.afterStep step).AsksDirectly start := by
  subst hstep
  intro step hmem
  rcases List.mem_append.mp hmem with hmem | hmem
  · exact h step hmem
  · obtain rfl := List.mem_singleton.mp hmem
    exact hasks

/-- One more step, which asks for nothing. -/
theorem afterPlain (h : s.AsksDirectly start) {statement : Statement} {release : Option Release}
    {needs : List Step} {step : Step} (hstep : step = t.draft scope statement release needs)
    (hasks : statement.askedDirectly = []) : (s.afterStep step).AsksDirectly start :=
  h.afterStep hstep (by simp [hasks])

end State.AsksDirectly

/-! ### The parts of a derivation -/

theorem AsksAccessor.asksDirectly {supply : Supply} (h : AsksAccessor c scope env p s supply s')
    (hs : s.AsksDirectly start) (hp : start.NeedsDirectly p) : s'.AsksDirectly start := by
  have hasks : ∀ name isAsync, ∀ q ∈ (Statement.single name p isAsync).askedDirectly,
      start.NeedsDirectly q := by
    simpa [Statement.askedDirectly] using hp
  cases h with
  | sync _ ht hasking =>
      subst ht
      exact State.AsksDirectly.congr
        (State.AsksDirectly.afterStep (hs.congr rfl) hasking (hasks _ _)) rfl
  | async _ ht hasking hwaiting =>
      subst ht
      have hasked := State.AsksDirectly.afterStep (hs.congr rfl) hasking (hasks _ _)
      exact State.AsksDirectly.congr (hasked.afterPlain hwaiting rfl) rfl

theorem CreatesValue.asksDirectly {name : String} {args : List (Option String)} {needs : List Step}
    {step : Step} (h : CreatesValue scope env p name args needs s step s')
    (hs : s.AsksDirectly start) : s'.AsksDirectly start := by
  cases h with
  | plain _ _ hcreating => exact hs.afterPlain hcreating rfl
  | awaited _ _ ht hcreating hwaiting =>
      subst ht
      have hcreated := State.AsksDirectly.afterPlain (hs.congr rfl) hcreating rfl
      exact hcreated.afterPlain hwaiting rfl
  | initialized _ _ hcreating hstarting =>
      have hcreated := hs.afterPlain hcreating rfl
      exact hcreated.afterPlain hstarting rfl
  | initializedAwaited _ _ hcreating ht hstarting hwaiting =>
      subst ht
      have hcreated := hs.afterPlain hcreating rfl
      have hstarted := State.AsksDirectly.afterPlain (hcreated.congr rfl) hstarting rfl
      exact hstarted.afterPlain hwaiting rfl

/-- The body of a delegate is none of the plan's. -/
theorem EmitsDelegate.asksDirectly {name : String} {body : Plan} {needs : List Step} {step : Step}
    (h : EmitsDelegate scope p name body needs s step s') (hs : s.AsksDirectly start) :
    s'.AsksDirectly start := by
  cases h with
  | plain _ hcreating => exact hs.afterPlain hcreating rfl
  | registered _ hopening hcreating =>
      exact (hs.afterPlain hopening rfl).afterPlain hcreating rfl

/-! ### Derivations -/

mutual

/-- Obtaining a value asks directly for nothing but direct dependencies. What is vouched for is
obtained without looking ahead of a delegate. -/
theorem Obtains.asksDirectly {c : Settings} (hhosts : catalog.Hosts among)
    (hc : c.container.catalog = catalog) {start : Place} {scope : Scope} {isTarget : Bool}
    {env : Environment} {p : Provider} {s s' : State} {supply : Supply} :
    Obtains c scope isTarget env p s supply s' →
      Vouched catalog among ⟨env, scope.isAsync, Environment.given p⟩ →
      s.Calm catalog among scope.isAsync → FoundDirectly start env p →
      (usesAccessor scope isTarget p = true → start.NeedsDirectly p) → s.AsksDirectly start →
      s'.AsksDirectly start
  | .atHand _, _, _, _, _, hs | .parameter _, _, _, _, _, hs => hs
  | .accessor _ huses hasks, _, _, _, hneeds, hs => hasks.asksDirectly hs (hneeds huses)
  | .delegate hp _ _ hhoists heach _ hbody hemits, hx, hcalm, _, _, hs => by
      -- A delegate's body does not count, and nothing is obtained ahead of it.
      obtain ⟨rfl, -⟩ := hhoists.calm hhosts hx hp hcalm.afterName
      cases heach
      have hu := State.AsksDirectly.congr hs (hbody.same.1.trans hhoists.same.1)
      exact State.AsksDirectly.congr (hemits.asksDirectly hu) rfl
  | .ownedAgain _ _ ht _ hstep, _, _, _, _, hs => by
      subst ht
      exact State.AsksDirectly.afterPlain (hs.congr rfl) hstep rfl
  | .owned (v := v) hp _ ht _ hlookup hbody hdefining _ hv hstep, hx, hcalm, hfound, _, hs => by
      -- The body is entered on the way down like any other dependency.
      obtain ⟨hbelow, hneeds⟩ := hfound.next (by rw [hp]; rfl)
        (Provider.HasBody.request_mem (.owned hp) _) hlookup
      have hplan := hbody.asksDirectly hhosts hc (hx.owned hp hlookup) (ht ▸ hcalm.answers) hbelow
        fun _ => hneeds
      have hu := State.AsksDirectly.congr hs (hbody.same.1.trans (by rw [ht]; rfl))
      have hdefined := State.AsksDirectly.afterStep (hu.congr rfl) hdefining hplan
      have hv' : v.AsksDirectly start := hdefined.congr (by rw [hv]; rfl)
      exact hv'.afterPlain hstep rfl
  | .value hp _ _ _ heach hcreates, hx, hcalm, hfound, _, hs => by
      have hbelow : ∀ r ∈ (env.enter p).requests p,
          Vouched catalog among ⟨env.enter p, scope.isAsync, r⟩ := fun r hr => by
        have hnext := hx.next (.intro rfl hr)
        rwa [waits_of_isCreated hp] at hnext
      have ht := heach.asksDirectly hhosts hc hbelow hcalm.afterName
        (fun r hr q hq => hfound.next (isDelegate_of_isCreated hp) hr hq) (hs.congr rfl)
      exact (hcreates.asksDirectly ht).congr (State.afterValue_steps ..)

/-- Obtaining several values asks directly for nothing but direct dependencies. -/
theorem ObtainsEach.asksDirectly {c : Settings} (hhosts : catalog.Hosts among)
    (hc : c.container.catalog = catalog) {start : Place} {scope : Scope} {env : Environment}
    {requests : List Request} {s s' : State} {supplies : List (Option Supply)} :
    ObtainsEach c scope env requests s supplies s' →
      (∀ r ∈ requests, Vouched catalog among ⟨env, scope.isAsync, r⟩) →
      s.Calm catalog among scope.isAsync →
      (∀ r ∈ requests, ∀ q, r.provider? = some q →
        FoundDirectly start env q ∧ start.NeedsDirectly q) →
      s.AsksDirectly start → s'.AsksDirectly start
  | .nil, _, _, _, hs => hs
  | .supplied hprovider head tail, hx, hcalm, hfound, hs => by
      have hhead := (hx _ List.mem_cons_self).given hprovider
      obtain ⟨hfirst, hneeds⟩ := hfound _ List.mem_cons_self _ hprovider
      exact tail.asksDirectly hhosts hc (fun r hr => hx r (List.mem_cons_of_mem _ hr))
        (head.calm hhosts hc hhead hcalm) (fun r hr => hfound r (List.mem_cons_of_mem _ hr))
        (head.asksDirectly hhosts hc hhead hcalm hfirst (fun _ => hneeds) hs)
  | .leftOut _ _ tail, hx, hcalm, hfound, hs =>
      tail.asksDirectly hhosts hc (fun r hr => hx r (List.mem_cons_of_mem _ hr)) hcalm
        (fun r hr => hfound r (List.mem_cons_of_mem _ hr)) hs

/-- The plan of a body asks directly for nothing but direct dependencies. -/
theorem Assembles.asksDirectly {c : Settings} (hhosts : catalog.Hosts among)
    (hc : c.container.catalog = catalog) {start : Place} {scope : Scope} {env : Environment}
    {target : Provider} {known : List (Provider.Identity × Supply)} {s s' : State} {plan : Plan} :
    Assembles c scope env target known s plan s' →
      Vouched catalog among ⟨env, scope.isAsync, Environment.given target⟩ →
      s.answers.Right catalog among → FoundDirectly start env target →
      (usesAccessor scope true target = true → start.NeedsDirectly target) →
      ∀ q ∈ plan.askedDirectly, start.NeedsDirectly q
  | .body hobtains harranges, hx, hright, hfound, hneeds => by
      have hs := hobtains.asksDirectly hhosts hc hx ⟨fun _ hmem => (by cases hmem), hright⟩ hfound
        hneeds fun _ hmem => (by cases hmem)
      intro q hq
      obtain ⟨step, hstep, hasks⟩ := mem_askedDirectlyIn.mp hq
      exact hs step (harranges.perm.subset hstep) q hasks

end

end Assembly

/-- The plan of an accessor asks directly for nothing but what its singleton needs directly. -/
theorem planAccessor_asksDirectly {config : Config} {trigger : Trigger} {env : Environment}
    {among : Provider → Prop} {asyncRelease isAsync : Bool} {target : Provider} {plan : Plan}
    (hhosts : env.catalog.Hosts among)
    (hx : Vouched env.catalog among ⟨env, isAsync, Environment.given target⟩)
    (h : planAccessor config trigger env asyncRelease isAsync target = .ok plan) {q : Provider}
    (hq : q ∈ plan.askedDirectly) :
    Place.NeedsDirectly ⟨env, isAsync, Environment.given target⟩ q := by
  unfold planAccessor at h
  obtain ⟨s, hassembles⟩ := Assembly.run_sound h
  refine hassembles.asksDirectly hhosts rfl hx (.nil _ _) ⟨_, .refl, rfl, rfl⟩ (fun huses => ?_) q hq
  -- The singleton itself is what its accessor creates.
  cases target <;> simp [Assembly.usesAccessor] at huses

end Wiring
