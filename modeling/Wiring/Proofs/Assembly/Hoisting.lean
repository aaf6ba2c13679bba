import Mathlib
import Wiring.Declarations
import Wiring.Proofs.Assembly.ReleaseStyle
import Wiring.Proofs.Assembly.Sparing
import Wiring.Proofs.Assembly.Topology
import Wiring.Proofs.Container.Calm

/-!
# Hoisting is complete

A synchronous delegate cannot wait in its body. Where it is created in a plan that can wait, a survey
tells which singletons the body will need that suspend, and they are obtained before the delegate. The
body is assembled only afterwards, by a walk of its own. This module shows that the survey foresees
everything that the walk asks for.

* `Step.Secures` — a step behind which a singleton was waited for.
* `Plan.Prepared` — every synchronous delegate of a plan that can wait has captured what its body
  needs, in every plan of the tree.
* `Assembles.prepares` — so it has in every assembled plan.
* `run_hoists` — so it has in the plan of a resolution or an accessor, if providers of one identity
  are alike; `run_not_hoisted` — and not otherwise.
-/

namespace Wiring

/-! ### What a delegate has captured -/

/-- A step fills a variable with a singleton of an identity for which was waited: the step waits
itself, or hands on the value that a forwarded singleton stands for. In the plan of an accessor its own
singleton is created instead (`created`), and waited for if its creation is asynchronous. -/
inductive Step.Secures (created : Prop) : Provider.Identity → String → Step → Prop
  | awaited {i : Provider.Identity} {name task : String} {ty : Option Ty} {p : Provider}
      {step asking : Step} (hwaiting : step.statement = .await (some name) task ty)
      (hneeds : step.needs = [asking]) (hasking : asking.statement = .single task p true)
      (hp : p.identity = i) : Secures created i name step
  | forwarded {ty : Ty} {i : Provider.Identity} {name v : String} {p : Provider} {step inner : Step}
      (hcreating : step.statement = .create name p [some v]) (hp : p.identity = .forwarded ty i)
      (hneeds : step.needs = [inner]) (hinner : Secures created i v inner) :
      Secures created (.forwarded ty i) name step
  | created {i : Provider.Identity} {name made : String} {p : Provider}
      {args : List (Option String)} {step making : Step} (hcreated : created)
      (hprovides : step.Provides name) (hreaches : step.Reaches making)
      (hmaking : making.statement = .create made p args) (hp : p.identity = i)
      (hwaited : p.isAsync = true → ∃ filled task ty, step.statement = .await filled task ty) :
      Secures created i name step

/-- A delegate has captured a singleton in a variable: it needs a step that waited for it. -/
def Step.Captures (created : Prop) (carrier : Step) (q : Provider) (v : String) : Prop :=
  ∃ d ∈ carrier.needs, d.Secures created q.identity v

/-- Every synchronous delegate that is created where waiting is possible has captured the singletons
that its body needs and that suspend, in the plan and in the bodies in it. -/
inductive Plan.Prepared (catalog : Catalog) (created : Prop) : Environment → Bool → Plan → Prop
  | plan {env : Environment} {isAsync : Bool} {plan : Plan}
      (ahead : ∀ carrier ∈ plan.steps, ∀ name p body registry, isAsync = true →
        carrier.statement = .delegate name p body registry → p.isAsync = false →
        body.Spared catalog (carrier.Captures created) (env.enter p) p)
      (bodies : ∀ carrier ∈ plan.steps, ∀ p body, carrier.statement.provider? = some p →
        carrier.statement.body? = some body →
        Plan.Prepared catalog created (env.enter p) carrier.statement.isBodyAsync body) :
      Plan.Prepared catalog created env isAsync plan

/-- The part of one step. -/
structure Step.Prepared (catalog : Catalog) (created : Prop) (env : Environment) (isAsync : Bool)
    (carrier : Step) : Prop where
  ahead : ∀ name p body registry, isAsync = true →
    carrier.statement = .delegate name p body registry → p.isAsync = false →
    body.Spared catalog (carrier.Captures created) (env.enter p) p
  body : ∀ p body, carrier.statement.provider? = some p → carrier.statement.body? = some body →
    body.Prepared catalog created (env.enter p) carrier.statement.isBodyAsync

theorem Step.Prepared.of_no_body {catalog : Catalog} {created : Prop} {env : Environment}
    {isAsync : Bool} {step : Step} (h : step.statement.body? = none) :
    step.Prepared catalog created env isAsync := by
  refine ⟨fun name p body registry _ hstatement _ => ?_, fun p body _ hbody => ?_⟩
  · rw [hstatement] at h
    cases h
  · cases h.symm.trans hbody

/-- A step with a body is prepared if the body is and, where the step is a synchronous delegate created
while waiting is possible, has captured what the body needs. -/
theorem Step.Prepared.of_body {catalog : Catalog} {created : Prop} {env : Environment}
    {isAsync : Bool} {step : Step} {p : Provider} {body : Plan}
    (hprovider : step.statement.provider? = some p) (hbody : step.statement.body? = some body)
    (hahead : isAsync = true → step.statement.isDelegate = true → p.isAsync = false →
      body.Spared catalog (step.Captures created) (env.enter p) p)
    (hinside : body.Prepared catalog created (env.enter p) p.isAsync) :
    step.Prepared catalog created env isAsync := by
  refine ⟨fun name q body' registry hwaits hdelegate hsync => ?_, fun q body' hq hbody' => ?_⟩
  · have hisDelegate : step.statement.isDelegate = true := by
      rw [hdelegate]
      rfl
    rw [hdelegate] at hprovider hbody
    cases hprovider
    cases hbody
    exact hahead hwaits hisDelegate hsync
  · cases hprovider.symm.trans hq
    cases hbody.symm.trans hbody'
    rw [Statement.isBodyAsync, hprovider]
    exact hinside

namespace Assembly

variable {catalog : Catalog} {among : Provider → Prop} {created : Prop} {c : Settings} {scope : Scope}
  {env base : Environment} {p : Provider} {s s' t u : State} {supply : Supply} {isTarget : Bool}

/-- A singleton created in the plan that asks for it is a value the container holds or a forwarded one,
or the plan is an accessor's. -/
theorem cases_of_not_usesAccessor (hsingle : p.lifetime = .single)
    (huses : usesAccessor scope isTarget p = false) :
    (∃ member, p = .held member) ∨ (∃ ty inner, p = .forwarded ty inner) ∨
      scope.accessorOf?.isSome = true := by
  cases p with
  | held member => exact .inl ⟨member, rfl⟩
  | forwarded ty inner => exact .inr (.inl ⟨ty, inner, rfl⟩)
  | parameter | delegate | array | owned => cases hsingle
  | construct | factory | call | decorated =>
      refine .inr (.inr ?_)
      cases haccessor : scope.accessorOf? with
      | none => simp [usesAccessor, hsingle, haccessor] at huses
      | some owner => rfl

/-! ### Every delegate has captured what its body needs -/

/-- The steps so far are prepared, and singletons that suspend are noted with steps that waited for
them. -/
structure State.Prepared (catalog : Catalog) (among : Provider → Prop) (created : Prop)
    (base : Environment) (isAsync : Bool) (s : State) : Prop where
  steps : ∀ step ∈ s.steps, step.Prepared catalog created base isAsync
  secured : ∀ entry ∈ s.obtained, ∀ q, among q → q.identity = entry.1 → q.lifetime = .single →
    q.Suspends catalog → ∃ step, entry.2.step? = some step ∧ step.Secures created entry.1 entry.2.name

namespace State.Prepared

variable {isAsync : Bool}

/-- Further steps that are prepared. -/
theorem extend (h : s.Prepared catalog among created base isAsync) (new : List Step)
    (hsteps : s'.steps = s.steps ++ new) (hobtained : s'.obtained = s.obtained)
    (hnew : ∀ step ∈ new, step.Prepared catalog created base isAsync) :
    s'.Prepared catalog among created base isAsync := by
  refine ⟨fun step hstep => ?_, hobtained ▸ h.secured⟩
  rw [hsteps] at hstep
  exact (List.mem_append.mp hstep).elim (h.steps step) (hnew step)

theorem same (h : s.Prepared catalog among created base isAsync) (hsteps : s'.steps = s.steps)
    (hobtained : s'.obtained = s.obtained) : s'.Prepared catalog among created base isAsync :=
  h.extend [] (hsteps.trans (List.append_nil _).symm) hobtained (by simp)

theorem afterNote (h : s.Prepared catalog among created base isAsync)
    (hsecured : ∀ q, among q → q.identity = p.identity → q.lifetime = .single →
      q.Suspends catalog → ∃ step, supply.step? = some step ∧
        step.Secures created p.identity supply.name) :
    (s.afterNote p supply).Prepared catalog among created base isAsync := by
  refine ⟨h.steps, fun entry hentry => ?_⟩
  rcases List.mem_cons.mp hentry with rfl | hentry
  · exact hsecured
  · exact h.secured entry hentry

/-- Further steps without bodies. -/
theorem extend_plain (h : s.Prepared catalog among created base isAsync) (new : List Step)
    (hsteps : s'.steps = s.steps ++ new) (hobtained : s'.obtained = s.obtained)
    (hnew : ∀ step ∈ new, step.statement.body? = none) :
    s'.Prepared catalog among created base isAsync :=
  h.extend new hsteps hobtained fun step hstep => .of_no_body (hnew step hstep)

theorem afterPlain (h : s.Prepared catalog among created base isAsync) {step : Step}
    (hstep : step.statement.body? = none) :
    (s.afterStep step).Prepared catalog among created base isAsync :=
  h.extend_plain [step] rfl rfl (by simpa using hstep)

/-- A note that is not a singleton's. -/
theorem afterNote_of_shared (h : s.Prepared catalog among created base isAsync)
    (hp : p.lifetime ≠ .single) : (s.afterNote p supply).Prepared catalog among created base isAsync :=
  h.afterNote fun _ _ hidentity hsingle _ =>
    absurd ((Provider.lifetime_eq hidentity).symm.trans hsingle) hp

/-- A body starts with notes of the plan around it. -/
theorem start (h : t.Prepared catalog among created base isAsync) (env : Environment) (waits : Bool)
    (s : State) : (s.forBody t.singletons).Prepared catalog among created env waits :=
  ⟨fun _ hmem => absurd hmem List.not_mem_nil,
    fun entry hentry => h.secured entry (List.mem_filter.mp hentry).1⟩

end State.Prepared

theorem AsksAccessor.prepares {isAsync : Bool} (hhosts : catalog.Hosts among)
    (hc : c.container.catalog = catalog) (h : AsksAccessor c scope env p s supply s') (hp : among p)
    (hsingle : p.lifetime = .single) (hright : s.answers.Right catalog among)
    (hs : s.Prepared catalog among created base isAsync) :
    s'.Prepared catalog among created base isAsync := by
  subst hc
  cases h with
  | @sync answers t asking hanswer ht hasking =>
      have hexact := (Survey.suspendsWith_exact hhosts hp hsingle hright hanswer).1
      subst ht
      refine State.Prepared.afterNote (hs.extend_plain [asking] rfl rfl
        (by simp [hasking, Statement.body?])) ?_
      -- Of one identity with it nothing suspends.
      intro q hq hidentity hqsingle hsuspends
      exact absurd (hexact.mpr ((hhosts.coherent q p hq hp hidentity).suspends hhosts hq hp
        hqsingle hsuspends)) Bool.false_ne_true
  | @async answers t asking waiting _ ht hasking hwaiting =>
      subst ht
      refine State.Prepared.afterNote (hs.extend_plain [asking, waiting] (by simp) rfl
        (by simp [hasking, hwaiting, Statement.body?])) ?_
      exact fun _ _ _ _ _ => ⟨waiting, rfl, .awaited (by rw [hwaiting]; rfl)
        (by rw [hwaiting]; rfl) (by rw [hasking]; rfl) rfl⟩

/-- The steps that create a value have no bodies. -/
theorem CreatesValue.bodiless {name : String} {args : List (Option String)} {needs : List Step}
    {step : Step} (h : CreatesValue scope env p name args needs s step s') :
    ∃ new, s'.steps = s.steps ++ new ∧ ∀ made ∈ new, made.statement.body? = none := by
  cases h with
  | plain _ _ hcreating => exact ⟨[step], rfl, by simp [hcreating, Statement.body?]⟩
  | @awaited t creating _ _ _ ht hcreating hwaiting =>
      exact ⟨[creating, step], by simp [ht], by simp [hcreating, hwaiting, Statement.body?]⟩
  | @initialized creating _ _ _ hcreating hstarting =>
      exact ⟨[creating, step], by simp, by simp [hcreating, hstarting, Statement.body?]⟩
  | @initializedAwaited t creating starting _ _ _ hcreating ht hstarting hwaiting =>
      exact ⟨[creating, starting, step], by simp [ht],
        by simp [hcreating, hstarting, hwaiting, Statement.body?]⟩

/-- The last step leads to the creation and provides the value; it waits if the provider is
asynchronous. -/
theorem CreatesValue.creation {name : String} {args : List (Option String)} {needs : List Step}
    {step : Step} (h : CreatesValue scope env p name args needs s step s') :
    ∃ making v, step.Provides name ∧ step.Reaches making ∧ making.statement = .create v p args ∧
      (p.isAsync = true → ∃ filled task ty, step.statement = .await filled task ty) := by
  cases h with
  | plain _ hasync hcreating =>
      exact ⟨step, name, .of_assigned (by rw [hcreating]; rfl), .refl _, by rw [hcreating]; rfl,
        fun h => absurd h (by simp [hasync])⟩
  | @awaited t creating _ _ _ _ hcreating hwaiting =>
      have hneed : creating ∈ step.needs := by rw [hwaiting]; exact List.mem_singleton_self _
      exact ⟨creating, _, .of_assigned (by rw [hwaiting]; rfl), .need hneed (.refl _),
        by rw [hcreating]; rfl, fun _ => ⟨_, _, _, by rw [hwaiting]; rfl⟩⟩
  | @initialized creating _ _ hasync hcreating hstarting =>
      have hneed : creating ∈ step.needs := by rw [hstarting]; exact List.mem_singleton_self _
      exact ⟨creating, name, .of_need hneed (.of_assigned (by rw [hcreating]; rfl)),
        .need hneed (.refl _), by rw [hcreating]; rfl, fun h => absurd h (by simp [hasync])⟩
  | @initializedAwaited t creating starting _ _ _ hcreating _ hstarting hwaiting =>
      have hstarted : creating ∈ starting.needs := by rw [hstarting]; exact List.mem_singleton_self _
      have hwaited : starting ∈ step.needs := by rw [hwaiting]; exact List.mem_singleton_self _
      exact ⟨creating, name,
        .of_need hwaited (.of_need hstarted (.of_assigned (by rw [hcreating]; rfl))),
        .need hwaited (.need hstarted (.refl _)), by rw [hcreating]; rfl,
        fun _ => ⟨_, _, _, by rw [hwaiting]; rfl⟩⟩

/-- A singleton created in the plan that asks for it was waited for, if it suspends. -/
theorem CreatesValue.secures {name : String} {supplies : List (Option Supply)} {step : Step}
    {isAsync : Bool} (h : CreatesValue scope (env.enter p) p name (namesOf supplies)
      (stepsOf supplies) t step u)
    (heach : ObtainsEach c scope (env.enter p) ((env.enter p).requests p) s supplies t)
    (hbelow : ∀ r ∈ (env.enter p).requests p, ∀ q, r.provider? = some q → among q)
    (ht : t.Prepared catalog among created base isAsync)
    (hcreated : scope.accessorOf?.isSome = true → created) (hsingle : p.lifetime = .single)
    (huses : usesAccessor scope isTarget p = false) (hsuspends : p.Suspends catalog) :
    step.Secures created p.identity name := by
  -- A singleton is created in the plan that asks for it if it is held by the module, if it is
  -- forwarded, or if the plan is that of its accessor. The first never suspends.
  rcases cases_of_not_usesAccessor hsingle huses with ⟨member, rfl⟩ | ⟨ty, inner, rfl⟩ | haccessor
  · exact absurd hsuspends Provider.Suspends.not_held
  · -- What is forwarded was obtained just before.
    cases heach with
    | leftOut hprovider => cases hprovider
    | @supplied _ _ _ _ _ _ _ _ supply _ hprovider head tail =>
        cases hprovider
        cases tail
        have hnoted := State.mem_of_noted (head.noted_of_single hsingle)
        obtain ⟨d, hd, hsecures⟩ := ht.secured _ hnoted inner
          (hbelow _ (List.mem_singleton_self _) inner rfl) rfl hsingle
          (hsuspends.of_forwarded hsingle)
        have hneeds : stepsOf [some supply] = [d] := by
          change supply.step? = some d at hd
          simp [stepsOf, hd]
        cases h with
        | plain _ _ hcreating =>
            exact .forwarded (v := supply.name) (by rw [hcreating]; rfl) rfl
              (by rw [hcreating]; exact hneeds) hsecures
        | awaited _ hasync => cases hasync
        | initialized hinit => cases hinit
        | initializedAwaited hinit => cases hinit
  -- In the plan of its accessor a singleton is created and waited for by the steps just made.
  · obtain ⟨making, v, hprovides, hreaches, hmaking, hwaited⟩ := h.creation
    exact .created (hcreated haccessor) hprovides hreaches hmaking rfl hwaited

/-- The steps that create a delegate: none but the last has a body, and it needs what the body needs. -/
theorem EmitsDelegate.carrier {name : String} {body : Plan} {needs : List Step} {step : Step}
    (h : EmitsDelegate scope p name body needs s step s') :
    (∃ opening, s'.steps = (s.steps ++ opening) ++ [step] ∧
        ∀ made ∈ opening, made.statement.body? = none) ∧
      needs ⊆ step.needs ∧ step.statement = .delegate name p body (name ++ "_disposeActions") := by
  cases h with
  | plain _ hcreating =>
      exact ⟨⟨[], by simp, by simp⟩, by rw [hcreating]; exact List.Subset.refl _,
        by rw [hcreating]; rfl⟩
  | @registered drain opening _ _ hopening hcreating =>
      refine ⟨⟨[opening], by simp, by simp [hopening, Statement.body?]⟩, ?_, by rw [hcreating]; rfl⟩
      rw [hcreating]
      exact List.subset_append_left _ _

/-- Creating a delegate around a prepared body keeps the plan prepared. -/
theorem EmitsDelegate.prepares {name : String} {body : Plan} {needs : List Step} {step : Step}
    {isAsync : Bool} (h : EmitsDelegate scope p name body needs u step s')
    (hu : u.Prepared catalog among created base isAsync)
    (hahead : isAsync = true → p.isAsync = false →
      body.Spared catalog (step.Captures created) (base.enter p) p)
    (hinside : body.Prepared catalog created (base.enter p) p.isAsync) :
    s'.Prepared catalog among created base isAsync := by
  obtain ⟨⟨opening, hgrown, hopening⟩, -, hstatement⟩ := h.carrier
  have hopened : State.Prepared catalog among created base isAsync
      { u with steps := u.steps ++ opening } := hu.extend_plain opening rfl rfl hopening
  refine hopened.extend [step] hgrown h.same.1 ?_
  simp only [List.mem_singleton, forall_eq]
  exact .of_body (by rw [hstatement]; rfl) (by rw [hstatement]; rfl)
    (fun hwaits _ hsync => hahead hwaits hsync) hinside

/-- What the body of a synchronous delegate needs and what suspends was found ahead of it, obtained and
noted. -/
theorem Hoists.supplied {ahead : List Provider} {supplies : List (Option Supply)}
    (h : Hoists c scope env p false s ahead s') (hwaits : scope.isAsync = true)
    (heach : ObtainsEach c scope env (ahead.map Environment.given) s' supplies t)
    (hhosts : catalog.Hosts among) (hcatalog : env.catalog = catalog)
    (hasked : Requested among base env p) (hright : s.answers.Right catalog among) :
    Supplied catalog (fun i supply => some supply ∈ supplies ∧ t.noted i = some supply) env
      (Environment.given p) := by
  unfold Hoists at h
  rw [hwaits] at h
  obtain ⟨answers, hahead, rfl⟩ := h
  subst hcatalog
  obtain ⟨waits, hwithin⟩ := hasked.within
  have hnoted := heach.noted fun q hq => (Survey.singletonsAhead_opened waits hahead q hq).1
  intro isAsync x hx q hq hsingle hsuspends
  obtain ⟨waits', hx'⟩ := hx.of_isAsync waits
  obtain ⟨found, hfound, hidentity⟩ := Survey.singletonsAhead_complete hhosts hwithin hright
    hahead hx' hq hsingle hsuspends
  exact hidentity ▸ hnoted found hfound

/-- A synchronous delegate has captured what its body needs and what suspends, if it needs the steps
behind what was obtained ahead of it. -/
theorem Assembles.captured {inner : Scope} {ty : Ty} {target : Provider} {ahead : List Provider}
    {supplies : List (Option Supply)} {body : Plan} {step : Step} {isAsync : Bool}
    (hbody : Assembles c inner (env.enter p) target t.singletons t body u)
    (hinner : inner.accessorOf? = none) (hhosts : catalog.Hosts among)
    (hc : c.container.catalog = catalog) (hcatalog : env.catalog = catalog) (hp : p.HasBody ty)
    (hsync : p.isAsync = false) (hlookup : (env.enter p).lookup ty = some target)
    (hasked : Requested among base env p) (hhoists : Hoists c scope env p false s ahead s')
    (hwaits : scope.isAsync = true)
    (heach : ObtainsEach c scope env (ahead.map Environment.given) s' supplies t)
    (hs : s.answers.Right catalog among) (hright : t.answers.Right catalog among)
    (ht : t.Prepared catalog among created base isAsync) (hneeds : stepsOf supplies ⊆ step.needs) :
    body.Spared catalog (step.Captures created) (env.enter p) p := by
  have hfollowed : p.IsFollowed := fun h => Bool.false_ne_true (hsync.symm.trans h.2)
  have hsupplied := hhoists.supplied hwaits heach hhosts hcatalog hasked hs
  have hspared := hbody.spares hhosts hc hinner ((env.catalog_enter p).trans hcatalog)
    (hasked.inside hp hlookup) (hasked.value_inside hp hlookup)
    (hsupplied.body hfollowed hp hlookup) hright
    fun i supply hsingle hfound => (State.noted_forBody hsingle).trans hfound.2
  refine hspared.mono ?_
  -- What was found ahead is noted, with a step that waited and that the delegate needs.
  rintro q v hsingle hsuspends ⟨hq, supply, ⟨hmem, hnoted⟩, rfl⟩
  obtain ⟨d, hd, hsecures⟩ := ht.secured _ (State.mem_of_noted hnoted) q hq rfl hsingle hsuspends
  exact ⟨d, hneeds (List.mem_filterMap.mpr ⟨some supply, hmem, hd⟩), hsecures⟩

mutual

/-- Obtaining a value keeps the plan prepared. For a synchronous delegate where waiting is possible, the
singletons found ahead have been obtained when its step is made, so its body can use them; every other
step either has no body or one that waits by itself. -/
theorem Obtains.prepares {catalog : Catalog} {among : Provider → Prop} {created : Prop}
    {c : Settings} (hhosts : catalog.Hosts among) (hc : c.container.catalog = catalog)
    {scope : Scope} {isTarget : Bool} {base env : Environment} {p : Provider} {s s' : State}
    {supply : Supply} :
    Obtains c scope isTarget env p s supply s' → (scope.accessorOf?.isSome = true → created) →
      base.catalog = catalog → scope.FitsIn base → Requested among base env p →
      s.answers.Right catalog among → s.Prepared catalog among created base scope.isAsync →
      s'.Prepared catalog among created base scope.isAsync
  | .atHand _, _, _, _, _, _, hs | .parameter _, _, _, _, _, _, hs => hs
  | .accessor _ huses hasks, _, _, _, hasked, hright, hs =>
      hasks.prepares hhosts hc hasked.among_self (lifetime_of_usesAccessor huses) hright hs
  | @Obtains.delegate _ _ _ _ _ _ result _ isAsync _ _ _ t _ _ ahead supplies _ body step hp _ _
      hhoists heach hlookup hbody hemits,
      hcreated, hbase, hscope, hasked, hright, hs => by
      -- A body needs two things: that it is prepared itself, whatever waits around it, and, if it
      -- cannot wait where the plan can, that what suspends below was obtained ahead and is captured by
      -- its step.
      have hcatalog := hasked.catalog.trans hbase
      have hbodied : p.HasBody result := .delegate hp
      obtain ⟨hsteps, -, hobtained⟩ := hhoists.same
      have hright₁ := hhoists.right hhosts hcatalog hasked hright
      have ht := heach.prepares hhosts hc hcreated hbase hscope (hhoists.asked_ahead hasked) hright₁
        (hs.same hsteps hobtained)
      have hright' := heach.right hhosts hc hbase hscope (hhoists.asked_ahead hasked) hright₁
      have hinside := hbody.prepares hhosts hc (fun haccessor => by cases haccessor)
        ((env.catalog_enter p).trans hcatalog) (.inl rfl) (hasked.inside hbodied hlookup) hright'
        (ht.start _ _ t)
      have hown : p.isAsync = isAsync := by rw [hp]; rfl
      rw [← hown] at hhoists
      have hahead : scope.isAsync = true → p.isAsync = false →
          body.Spared catalog (step.Captures created) (env.enter p) p := fun hwaits hsync =>
        hbody.captured (s := s.afterName) rfl hhosts hc hcatalog hbodied hsync hlookup hasked
          (hsync ▸ hhoists) hwaits heach hright hright' ht hemits.carrier.2.1
      rw [hasked.enter_eq] at hahead hinside
      exact (hemits.prepares (ht.same hbody.same.1 hbody.same.2) hahead
        (hown ▸ hinside)).afterNote_of_shared hbodied.not_single
  | @Obtains.ownedAgain _ _ _ _ _ _ _ _ _ _ _ _ step _ _ ht _ hstep, _, _, _, _, _, hs => by
      subst ht
      have hnamed : s.afterName.Prepared catalog among created base scope.isAsync := hs.same rfl rfl
      exact hnamed.afterPlain (by rw [hstep]; rfl)
  | @Obtains.owned _ _ _ _ _ _ value _ _ _ t u v _ _ body defining step hp _ ht _ hlookup hbody
      hdefining _ hv hstep, _, hbase, _, hasked, hright, hs => by
      -- The body of an owned value waits where the plan does, so nothing is obtained ahead of it.
      have hcatalog := hasked.catalog.trans hbase
      have hbodied : p.HasBody value := .owned hp
      have ht' : t.Prepared catalog among created base scope.isAsync :=
        hs.same (by rw [ht]; rfl) (by rw [ht]; rfl)
      have hinside := hbody.prepares hhosts hc (fun haccessor => by cases haccessor)
        ((env.catalog_enter p).trans hcatalog) (.inl rfl) (hasked.inside hbodied hlookup)
        (ht ▸ hright) (ht'.start _ _ t)
      rw [hasked.enter_eq] at hinside
      have hcarrier : defining.Prepared catalog created base scope.isAsync :=
        .of_body (by rw [hdefining]; rfl) (by rw [hdefining]; rfl)
          (fun _ hdelegate _ => by rw [hdefining] at hdelegate; cases hdelegate)
          (by rw [hp] at hinside ⊢; exact hinside)
      have hu : u.afterName.Prepared catalog among created base scope.isAsync :=
        ht'.same hbody.same.1 hbody.same.2
      have hdefined : (u.afterName.afterStep defining).Prepared catalog among created base
          scope.isAsync := hu.extend [defining] rfl rfl (by simpa using hcarrier)
      have hv' : v.Prepared catalog among created base scope.isAsync := by
        rw [hv]
        exact hdefined.afterNote_of_shared hbodied.not_single
      exact hv'.afterPlain (by rw [hstep]; rfl)
  | @Obtains.value _ _ _ _ _ _ _ _ _ _ step hp _ huses _ heach hcreates, hcreated, hbase, hscope,
      hasked, hright, hs => by
      have hbelow : ∀ r ∈ (env.enter p).requests p, ∀ q, r.provider? = some q →
          Requested among base (env.enter p) q :=
        fun r hr q hq => hasked.request hp huses hscope hr hq
      have ht := heach.prepares hhosts hc hcreated hbase hscope hbelow hright (hs.same rfl rfl)
      obtain ⟨new, hgrown, hnew⟩ := hcreates.bodiless
      have hu := ht.extend_plain _ hgrown hcreates.same.1 hnew
      unfold State.afterValue
      split
      -- A value is noted for its identity. A provider of that identity that suspends is like the one
      -- created, so this one suspends too and the steps just made have waited for it.
      · refine hu.afterNote fun q hq hidentity hqsingle hsuspends => ⟨step, rfl, ?_⟩
        have hsingle : p.lifetime = .single := (Provider.lifetime_eq hidentity).symm.trans hqsingle
        exact hcreates.secures heach (fun r hr q hq => (hbelow r hr q hq).among_self) ht hcreated
          hsingle huses ((hhosts.coherent q p hq hasked.among_self hidentity).suspends hhosts hq
            hasked.among_self hqsingle hsuspends)
      · exact hu

/-- Obtaining several values keeps the plan prepared. -/
theorem ObtainsEach.prepares {catalog : Catalog} {among : Provider → Prop} {created : Prop}
    {c : Settings} (hhosts : catalog.Hosts among) (hc : c.container.catalog = catalog)
    {scope : Scope} {base env : Environment} {requests : List Request} {s s' : State}
    {supplies : List (Option Supply)} :
    ObtainsEach c scope env requests s supplies s' → (scope.accessorOf?.isSome = true → created) →
      base.catalog = catalog → scope.FitsIn base →
      (∀ r ∈ requests, ∀ q, r.provider? = some q → Requested among base env q) →
      s.answers.Right catalog among → s.Prepared catalog among created base scope.isAsync →
      s'.Prepared catalog among created base scope.isAsync
  | .nil, _, _, _, _, _, hs => hs
  | .supplied hprovider head tail, hcreated, hbase, hscope, hasked, hright, hs => by
      have hhead := hasked _ List.mem_cons_self _ hprovider
      exact tail.prepares hhosts hc hcreated hbase hscope
        (fun r hr => hasked r (List.mem_cons_of_mem _ hr))
        (head.right hhosts hc hbase hscope hhead hright)
        (head.prepares hhosts hc hcreated hbase hscope hhead hright hs)
  | .leftOut _ _ tail, hcreated, hbase, hscope, hasked, hright, hs =>
      tail.prepares hhosts hc hcreated hbase hscope
        (fun r hr => hasked r (List.mem_cons_of_mem _ hr)) hright hs

/-- Every assembled plan is prepared. -/
theorem Assembles.prepares {catalog : Catalog} {among : Provider → Prop} {created : Prop}
    {c : Settings} (hhosts : catalog.Hosts among) (hc : c.container.catalog = catalog)
    {scope : Scope} {base : Environment} {target : Provider}
    {known : List (Provider.Identity × Supply)} {s s' : State} {plan : Plan} :
    Assembles c scope base target known s plan s' → (scope.accessorOf?.isSome = true → created) →
      base.catalog = catalog → scope.FitsIn base → Requested among base base target →
      s.answers.Right catalog among →
      (s.forBody known).Prepared catalog among created base scope.isAsync →
      plan.Prepared catalog created base scope.isAsync
  | .body hobtains harranges, hcreated, hbase, hscope, hasked, hright, hs => by
      have ht := hobtains.prepares hhosts hc hcreated hbase hscope hasked hright hs
      have harranged : ∀ step ∈ _, step ∈ _ := fun step => (harranges.perm.mem_iff (a := step)).mp
      exact .plan (fun carrier hcarrier => (ht.steps carrier (harranged carrier hcarrier)).ahead)
        fun carrier hcarrier => (ht.steps carrier (harranged carrier hcarrier)).body

end

end Assembly

/-! ### Plans as a whole -/

/-- In a prepared plan every plan is prepared. -/
theorem Plan.Prepared.within {catalog : Catalog} {created : Prop} {env : Environment}
    {isAsync : Bool} {root nested : Plan} {around : List (Plan × Step)}
    (h : root.Prepared catalog created env isAsync) (hwithin : root.Within around nested) :
    nested.Prepared catalog created (env.within around) (canWait isAsync around) := by
  induction hwithin with
  | root => exact h
  | body _ hcarrier hbody ih =>
      obtain ⟨p, hp⟩ := Statement.provider_of_body hbody
      cases ih with
      | plan _ bodies => simpa [Environment.within, canWait, hp] using bodies _ hcarrier p _ hp hbody

/-- The providers below a place are those of a container. -/
theorem Place.hosts_meets {x : Place} (hcoherent : Coherent x.Meets) :
    x.env.catalog.Hosts x.Meets := by
  refine ⟨hcoherent, ?_⟩
  rintro p ⟨y, hy, hp⟩ hsingle
  exact within_of_single (x.within_meets.leads hy) hp hsingle (catalog_of_leads hy) false

/-- A delegate has captured a singleton in a variable of the plans that it is created in: it needs a
step there that waited for it. -/
def Step.CapturesFrom (created : Prop) (around : List (Plan × Step)) (plan : Plan) (carrier : Step)
    (q : Provider) (v : String) : Prop :=
  ∃ d ∈ carrier.needs, (d ∈ plan.steps ∨ ∃ outer ∈ around, d ∈ outer.1.steps) ∧
    d.Secures created q.identity v

namespace Assembly

/-- In the plan of a resolution, and in that of an accessor, every synchronous delegate that is created
where waiting is possible has captured each singleton that its body uses and that suspends, and nothing
in the body, up to the bodies of asynchronous delegates, asks for one that suspends. Providers of one
identity below the target must be alike. -/
theorem run_hoists (config : Config) (trigger : Trigger) (scope : Scope) (env : Environment)
    (target : Provider) (root : Plan) (h : run config trigger scope env target = .ok root)
    (haround : scope.around = []) (hcontainer : scope.accessorOf? = none ∨ env.isContainer = true)
    (hcoherent : Coherent (Place.mk env scope.isAsync (Environment.given target)).Meets)
    (around : List (Plan × Step)) (nested : Plan) (hwithin : root.Within around nested)
    (hwaits : canWait scope.isAsync around = true) (carrier : Step) (hcarrier : carrier ∈ nested.steps)
    (name : String) (p : Provider) (body : Plan) (registry : String)
    (hdelegate : carrier.statement = .delegate name p body registry) (hsync : p.isAsync = false) :
    body.Spared env.catalog
      (carrier.CapturesFrom (scope.accessorOf?.isSome = true) around nested)
      ((env.within around).enter p) p := by
  obtain ⟨s, hassembles⟩ := run_sound h
  have hscope : scope.FitsIn env := hcontainer.imp_right fun hcontainer => ⟨hcontainer, haround⟩
  have hprepared : root.Prepared env.catalog (scope.accessorOf?.isSome = true) env scope.isAsync :=
    hassembles.prepares (Place.hosts_meets hcoherent) rfl id rfl hscope
      ⟨rfl, fun _ => rfl, _, Place.within_meets _⟩ (.nil _ _)
      ⟨fun _ hmem => absurd hmem List.not_mem_nil, fun _ hmem => absurd hmem List.not_mem_nil⟩
  -- The needs of a step stay in the plan or lead to the plans around it; that takes no knowledge of
  -- what is around.
  have hfits : scope.Fits (fun _ => True) ⟨[], fun _ => True, env.depth⟩ := by
    refine ⟨fun _ _ => trivial, fun _ _ => trivial, hcontainer.imp_right fun hcontainer => ?_⟩
    exact List.length_eq_zero_iff.mpr (List.isEmpty_iff.mp hcontainer)
  obtain ⟨n, hplanned⟩ := run_planned (fun _ => True) h hfits (.of_all fun _ => trivial)
    (.of_all fun _ => trivial)
  cases hprepared.within hwithin with
  | plan ahead _ =>
      refine (ahead carrier hcarrier name p body registry hwaits hdelegate hsync).mono ?_
      rintro q v - - ⟨d, hneed, hsecures⟩
      exact ⟨d, hneed, hplanned.needs_around (Surroundings.sound_empty _ _ _) rfl hwithin hcarrier
        hneed, hsecures⟩

/-- A body with a delegate in it, and an owned value in the body of that: they use a singleton that
suspends and one that leads to it. -/
theorem run_hoists_nested :
    let a : Ty := .plain "A"
    let b : Ty := .plain "B"
    let u : Ty := .plain "U"
    let t : Ty := .plain "T"
    let v : Ty := .plain "V"
    let r : Ty := .plain "R"
    let needs (tys : List Ty) : List Parameter := tys.map fun ty => ⟨"", 0, ty, false⟩
    let env := ((({} : Declarations).addConstructor (.new a []) .single { isAsync := true })
      |>.addConstructor (.new b (needs [a])) .single {}
      |>.addConstructor (.new u (needs [a])) .dependency {}
      |>.addConstructor (.new t (needs [b, .owned u false])) .dependency {}
      |>.addConstructor (.new v (needs [.delegate [] t false])) .dependency {}
      |>.addConstructor (.new r (needs [.delegate [] v false])) .resolution {}).build
    let scope : Scope := { asyncRelease := true, isAsync := true, around := [], accessorOf? := none }
    ∃ target plan, env.lookup r = some target ∧ run {} .never scope env target = .ok plan ∧
      ∃ carrier ∈ plan.steps, carrier.needs.map Step.id = [1, 3] ∧
        ∃ name p body registry, carrier.statement = .delegate name p body registry ∧
          p.isAsync = false ∧
            body.Spared env.catalog (carrier.CapturesFrom (scope.accessorOf?.isSome = true) [] plan)
              (env.enter p) p := by
  intro a b u t v r needs env scope
  have hsummary : ((env.lookup r).bind fun target => (run {} .never scope env target).toOption).map
      (fun plan => plan.steps.any fun step => step.statement.isDelegate &&
        !step.statement.isBodyAsync && step.needs.map Step.id == [1, 3]) = some true := by cbv
  obtain ⟨plan, hplan, hany⟩ := Option.map_eq_some_iff.mp hsummary
  obtain ⟨target, hlookup, hok⟩ := Option.bind_eq_some_iff.mp hplan
  obtain ⟨carrier, hcarrier, hmatch⟩ := List.any_eq_true.mp hany
  have hok := Run.ok_of_toOption hok
  have hconsistent : env.catalog.Consistent := .of_flat (by cbv) (by decide +kernel) rfl
  simp only [Bool.and_eq_true, Bool.not_eq_true', beq_iff_eq] at hmatch
  obtain ⟨⟨hisDelegate, hsync⟩, hneeds⟩ := hmatch
  cases hdelegate : carrier.statement with
  | delegate name p body registry =>
      rw [hdelegate] at hsync
      exact ⟨target, plan, hlookup, hok, carrier, hcarrier, hneeds, name, p, body, registry, hdelegate,
        hsync, run_hoists _ _ scope env target plan hok rfl (.inl rfl)
          (hconsistent.coherent_given hlookup true) [] plan .root rfl carrier hcarrier name p body
          registry hdelegate hsync⟩
  | _ =>
      rw [hdelegate] at hisDelegate
      cases hisDelegate

/-- Two singletons of one identity that are not alike: that the one waits was found out first and is
taken for the other, so the body of a synchronous delegate asks for a singleton that suspends. -/
theorem run_not_hoisted :
    let f : Ty := .plain "F"
    let t : Ty := .plain "T"
    let r : Ty := .plain "R"
    let ia : Ty := .plain "IA"
    let ib : Ty := .plain "IB"
    let needs (tys : List Ty) : List Parameter := tys.map fun ty => ⟨"", 0, ty, false⟩
    let env := ((({} : Declarations).addConstructor (.new f []) .single { exposedAs := [ia] })
      |>.addConstructor (.new f []) .single { isAsync := true, exposedAs := [ib] }
      |>.addConstructor (.new t (needs [ia])) .dependency {}
      |>.addConstructor (.new r (needs [.delegate [] ib true, .delegate [] t false]))
        .resolution {}).build
    let scope : Scope := { asyncRelease := true, isAsync := true, around := [], accessorOf? := none }
    ∃ target plan, env.lookup r = some target ∧ run {} .never scope env target = .ok plan ∧
      ∃ carrier ∈ plan.steps, ∃ name p body registry,
        carrier.statement = .delegate name p body registry ∧ p.isAsync = false ∧
          ∃ step ∈ body.steps, ∃ task q, step.statement = .single task q true := by
  intro f t r ia ib needs env scope
  have hsummary : ((env.lookup r).bind fun target => (run {} .never scope env target).toOption).map
      (fun plan => plan.steps.any fun step => step.statement.isDelegate &&
        !step.statement.isBodyAsync && step.statement.body?.any fun body =>
          body.steps.any fun inner => inner.statement.holdsTask && inner.statement.creation?.isNone) =
        some true := by cbv
  obtain ⟨plan, hplan, hany⟩ := Option.map_eq_some_iff.mp hsummary
  obtain ⟨target, hlookup, hok⟩ := Option.bind_eq_some_iff.mp hplan
  obtain ⟨carrier, hcarrier, hmatch⟩ := List.any_eq_true.mp hany
  simp only [Bool.and_eq_true, Bool.not_eq_true', Option.any_eq_true, List.any_eq_true,
    Option.isNone_iff_eq_none] at hmatch
  obtain ⟨⟨hisDelegate, hsync⟩, body, hbody, step, hstep, hholds, hnot⟩ := hmatch
  cases hdelegate : carrier.statement with
  | delegate name p nested registry =>
      rw [hdelegate] at hsync hbody
      obtain rfl : nested = body := Option.some.inj hbody
      refine ⟨target, plan, hlookup, Run.ok_of_toOption hok, carrier, hcarrier, name, p, nested,
        registry, hdelegate, hsync, step, hstep, ?_⟩
      -- What holds a task without being a creation asks for a singleton.
      cases hsingle : step.statement with
      | single task q answer =>
          rw [hsingle] at hholds
          obtain rfl : answer = true := hholds
          exact ⟨task, q, rfl⟩
      | create name q args =>
          rw [hsingle] at hnot
          cases hnot
      | _ =>
          rw [hsingle] at hholds
          cases hholds
  | _ =>
      rw [hdelegate] at hisDelegate
      cases hisDelegate

end Assembly

end Wiring
