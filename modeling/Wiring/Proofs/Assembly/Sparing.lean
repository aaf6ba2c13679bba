import Wiring.Proofs.Assembly.Memory
import Wiring.Proofs.Survey.Completeness

/-!
# Bodies that ask for nothing that suspends

Where singletons that suspend were obtained around a body before it is assembled, the body finds them
among the notes it starts with and does not ask for them anew.

* `Plan.Spared` — nothing in a body, up to the bodies of asynchronous delegates, asks for a singleton
  that suspends; wherever one is used, its variable was captured.
* `Supplied` — the singletons needed at a request that suspend have a supply already.
* `Obtains.spares`, `Assembles.spares` — where they have, no body asks for one.
-/

namespace Wiring

/-! ### What a body uses -/

/-- A request made in the body of a provider and the variable used for it: the argument of a creation,
or the value of the body. -/
inductive Plan.Uses (env : Environment) (owner : Provider) (plan : Plan) : Request → String → Prop
  | argument {step : Step} {name v : String} {p : Provider} {args : List (Option String)}
      {r : Request} (hstep : step ∈ plan.steps) (hcreate : step.statement = .create name p args)
      (hzip : (r, some v) ∈ ((env.enter p).requests p).zip args) : Uses env owner plan r v
  | target {r : Request} (hr : r ∈ env.requests owner) : Uses env owner plan r plan.target

/-- The body of a provider, and every body in it but those of asynchronous delegates, asks for no
singleton that suspends. Where such a singleton is used, its variable was captured. -/
inductive Plan.Spared (catalog : Catalog) (captured : Provider → String → Prop) :
    Environment → Provider → Plan → Prop
  | plan {env : Environment} {owner : Provider} {plan : Plan}
      (asks : ∀ step ∈ plan.steps, ∀ name q, step.statement ≠ .single name q true)
      (uses : ∀ r v, plan.Uses env owner r v → ∀ q, r.provider? = some q → q.lifetime = .single →
        q.Suspends catalog → captured q v)
      (bodies : ∀ step ∈ plan.steps, ∀ p body, step.statement.provider? = some p →
        step.statement.body? = some body → p.IsFollowed →
        Plan.Spared catalog captured (env.enter p) p body) :
      Plan.Spared catalog captured env owner plan

/-- The part of one step. -/
structure Step.Spared (catalog : Catalog) (captured : Provider → String → Prop) (env : Environment)
    (step : Step) : Prop where
  asks : ∀ name q, step.statement ≠ .single name q true
  arguments : ∀ name p args, step.statement = .create name p args → ∀ r v,
    (r, some v) ∈ ((env.enter p).requests p).zip args → ∀ q, r.provider? = some q →
      q.lifetime = .single → q.Suspends catalog → captured q v
  body : ∀ p body, step.statement.provider? = some p → step.statement.body? = some body →
    p.IsFollowed → body.Spared catalog captured (env.enter p) p

/-- More may be captured than what is used. -/
theorem Plan.Spared.mono {catalog : Catalog} {captured wider : Provider → String → Prop}
    {env : Environment} {owner : Provider} {plan : Plan} (h : plan.Spared catalog captured env owner)
    (hwider : ∀ q v, q.lifetime = .single → q.Suspends catalog → captured q v → wider q v) :
    plan.Spared catalog wider env owner := by
  induction h with
  | plan asks uses _ ih =>
      exact .plan asks (fun r v huses q hq hsingle hsuspends =>
        hwider q v hsingle hsuspends (uses r v huses q hq hsingle hsuspends)) ih

/-! ### Singletons that suspend -/

namespace Provider.Suspends

variable {catalog : Catalog} {p q : Provider} {r : Request}

/-- A singleton suspends if one does that it depends on. -/
theorem of_request (hfollowed : p.IsFollowed) (hsingle : q.lifetime = .single)
    (hr : r ∈ ((Environment.ofCatalog catalog).enter p).requests p) (hq : r.provider? = some q)
    (h : q.Suspends catalog) : p.Suspends catalog := by
  obtain ⟨x, hx, a, ha, hasync, hdelegate⟩ := h
  have hstep : (Place.ofProvider catalog false p).LeadsThrough IsFollowed
      ⟨(Environment.ofCatalog catalog).enter p, p.waits false, r⟩ := by
    refine .single ⟨fun p' hp' => ?_, .intro rfl hr⟩
    cases hp'
    exact hfollowed
  obtain ⟨waits, hbelow⟩ := hx.of_isAsync (p.waits false)
  have hcatalog : ((Environment.ofCatalog catalog).enter p).catalog = catalog :=
    Environment.catalog_enter _ p
  rcases Place.leadsThrough_of_single (x := ⟨_, p.waits false, r⟩) hq hsingle hcatalog hbelow with
    heq | hleads
  · obtain ⟨-, -, hrequest⟩ := Place.mk.inj heq
    refine ⟨_, hstep, a, ?_, hasync, hdelegate⟩
    rw [hrequest] at ha
    exact hq.trans ha
  · exact ⟨_, hstep.trans hleads, a, ha, hasync, hdelegate⟩

/-- A forwarded singleton suspends only if what it forwards to does. -/
theorem of_forwarded {ty : Ty} (hsingle : p.lifetime = .single)
    (h : (Provider.forwarded ty p).Suspends catalog) : p.Suspends catalog := by
  obtain ⟨x, hx, a, ha, hasync, hdelegate⟩ := h
  rcases Relation.ReflTransGen.cases_head hx with rfl | ⟨z, ⟨-, hprovider, hr⟩, hzx⟩
  · cases ha
    cases hasync
  · cases hprovider
    obtain rfl := List.mem_singleton.mp hr
    have henter : (Environment.ofCatalog catalog).enter (.forwarded ty p) = .ofCatalog catalog :=
      (Environment.ofCatalog catalog).enter_of_single hsingle
    refine ⟨x, ?_, a, ha, hasync, hdelegate⟩
    change Place.LeadsThrough _ ⟨(Environment.ofCatalog catalog).enter _, false, _⟩ x at hzx
    rwa [henter] at hzx

theorem not_held {member : Member} : ¬ (Provider.held member).Suspends catalog := by
  rintro ⟨x, hx, a, ha, hasync, -⟩
  rcases Relation.ReflTransGen.cases_head hx with rfl | ⟨z, ⟨-, hprovider, hr⟩, -⟩
  · cases ha
    cases hasync
  · cases hprovider
    exact absurd hr List.not_mem_nil

end Provider.Suspends

namespace Assembly

variable {catalog : Catalog} {among : Provider → Prop} {c : Settings} {scope : Scope}
  {env base : Environment} {p q : Provider} {r : Request} {s s' t u : State} {supply : Supply}
  {isTarget : Bool} {stock : Provider.Identity → Supply → Prop}
  {captured : Provider → String → Prop}

theorem isFollowed_of_isCreated (hp : p.isCreated = true) : p.IsFollowed :=
  fun h => Bool.false_ne_true ((isDelegate_of_isCreated hp).symm.trans h.1)

/-! ### What is supplied -/

/-- Every singleton that suspends and is needed at a request, outside singletons and the bodies of
asynchronous delegates, has a supply already. -/
def Supplied (catalog : Catalog) (stock : Provider.Identity → Supply → Prop) (env : Environment)
    (r : Request) : Prop :=
  ∀ isAsync x, (Place.mk env isAsync r).LeadsThrough Provider.IsOpened x → ∀ q,
    x.request.provider? = some q → q.lifetime = .single → q.Suspends catalog →
      ∃ supply, stock q.identity supply

namespace Supplied

theorem next (h : Supplied catalog stock env (Environment.given p)) (hopened : p.IsOpened)
    (hr : r ∈ (env.enter p).requests p) : Supplied catalog stock (env.enter p) r := by
  intro isAsync x hx q hq
  obtain ⟨waits, hbelow⟩ := hx.of_isAsync (p.waits true)
  refine h true _ (.head ⟨fun p' hp' => ?_, .intro rfl hr⟩ hbelow) q hq
  cases hp'
  exact hopened

theorem given (h : Supplied catalog stock env r) (hq : r.provider? = some q) :
    Supplied catalog stock env (Environment.given q) := by
  intro isAsync x hx a ha
  have hnext : ∀ y, (Place.mk env isAsync (Environment.given q)).Next y →
      (Place.mk env isAsync r).Next y := by
    rintro y ⟨hprovider, hr⟩
    cases hprovider
    exact .intro hq hr
  rcases Place.leadsThrough_of_next (x := ⟨env, isAsync, r⟩) hq hnext hx with rfl | hleads
  · exact h isAsync _ .refl a (hq.trans ha)
  · exact h isAsync x hleads a ha

/-- Where a singleton is requested, nothing else is looked for. -/
theorem of_single (h : ∀ q, r.provider? = some q → q.lifetime = .single ∧
    (q.Suspends catalog → ∃ supply, stock q.identity supply)) : Supplied catalog stock env r := by
  intro isAsync x hx q hq _ hsuspends
  rcases Relation.ReflTransGen.cases_head hx with rfl | ⟨z, ⟨hpass, hprovider, -⟩, -⟩
  · exact (h q hq).2 hsuspends
  · exact absurd (h _ hprovider).1 (hpass _ hprovider).2

theorem exists_supply (h : Supplied catalog stock env (Environment.given q))
    (hsingle : q.lifetime = .single) (hsuspends : q.Suspends catalog) :
    ∃ supply, stock q.identity supply :=
  h true _ .refl q rfl hsingle hsuspends

/-- What is supplied for a provider with a body is supplied for the value of the body. -/
theorem body {ty : Ty} {target : Provider} (h : Supplied catalog stock env (Environment.given p))
    (hfollowed : p.IsFollowed) (hp : p.HasBody ty)
    (hlookup : (env.enter p).lookup ty = some target) :
    Supplied catalog stock (env.enter p) (Environment.given target) :=
  (h.next ⟨hfollowed, hp.not_single⟩ (hp.request_mem _)).given hlookup

/-- Of a singleton that is created in a plan no accessor's, and does not suspend, nothing that suspends
is needed. -/
theorem below_single (hscope : scope.accessorOf? = none) (hcatalog : env.catalog = catalog)
    (hp : p.isCreated = true) (hsingle : p.lifetime = .single)
    (huses : usesAccessor scope isTarget p = false) (hnot : ¬ p.Suspends catalog)
    (hr : r ∈ (env.enter p).requests p) : Supplied catalog stock (env.enter p) r := by
  refine .of_single fun q hq => ?_
  have hqsingle := lifetime_of_not_usesAccessor hsingle huses hscope hr hq
  refine ⟨hqsingle, fun hsuspends => absurd ?_ hnot⟩
  have henter : env.enter p = (Environment.ofCatalog catalog).enter p := by
    rw [env.enter_of_single hsingle, (Environment.ofCatalog catalog).enter_of_single hsingle,
      Environment.root, hcatalog]
    rfl
  rw [henter] at hr
  exact hsuspends.of_request (isFollowed_of_isCreated hp) hqsingle hr hq

end Supplied

/-- What is in stock is noted. -/
def State.Holds (stock : Provider.Identity → Supply → Prop) (s : State) : Prop :=
  ∀ i supply, i.lifetime = .single → stock i supply → s.noted i = some supply

namespace State.Holds

theorem keeps {touches : Provider.Identity → Prop} (h : s.Holds stock) (hkeeps : Keeps touches s s') :
    s'.Holds stock :=
  fun i supply hsingle hstock => hkeeps.kept i supply (h i supply hsingle hstock)

/-- What a plan has in stock is in stock for the bodies in it. -/
theorem forBody (h : t.Holds stock) (s : State) : (s.forBody t.singletons).Holds stock :=
  fun i supply hsingle hstock => (noted_forBody hsingle).trans (h i supply hsingle hstock)

/-- A singleton that was not obtained does not suspend. -/
theorem not_suspends (h : s.Holds stock) (hsupplied : Supplied catalog stock env (Environment.given q))
    (hsingle : q.lifetime = .single) (hnone : s.noted q.identity = none) : ¬ q.Suspends catalog := by
  intro hsuspends
  obtain ⟨supply, hsupply⟩ := hsupplied.exists_supply hsingle hsuspends
  cases hnone.symm.trans
    (h q.identity supply ((Provider.lifetime_identity q).trans hsingle) hsupply)

end State.Holds

/-- A singleton that suspends is taken from the stock. -/
theorem Obtains.stocked (h : Obtains c scope isTarget env p s supply s') (hs : s.Holds stock)
    (hsupplied : Supplied catalog stock env (Environment.given p)) (hsingle : p.lifetime = .single)
    (hsuspends : p.Suspends catalog) : stock p.identity supply := by
  obtain ⟨found, hfound⟩ := hsupplied.exists_supply hsingle hsuspends
  have hnoted := hs _ _ ((Provider.lifetime_identity p).trans hsingle) hfound
  rwa [h.eq_of_noted hsingle hnoted]

/-! ### Bodies ask for nothing that suspends -/

/-- The steps so far ask for no singleton that suspends. -/
def State.Spared (catalog : Catalog) (captured : Provider → String → Prop) (base : Environment)
    (s : State) : Prop :=
  ∀ step ∈ s.steps, step.Spared catalog captured base

namespace State.Spared

theorem congr (h : s.Spared catalog captured base) (hsteps : s'.steps = s.steps) :
    s'.Spared catalog captured base := by
  unfold State.Spared
  rwa [hsteps]

theorem afterStep (h : s.Spared catalog captured base) {step : Step}
    (hstep : step.Spared catalog captured base) :
    (s.afterStep step).Spared catalog captured base := by
  intro other hother
  rcases List.mem_append.mp hother with hother | hother
  · exact h other hother
  · obtain rfl := List.mem_singleton.mp hother
    exact hstep

/-- One more step that asks for no singleton, creates nothing from arguments and has no body. -/
theorem afterPlain (h : s.Spared catalog captured base) {statement : Statement}
    {release : Option Release} {needs : List Step} {step : Step}
    (hstep : step = t.draft scope statement release needs) (hbody : statement.body? = none)
    (hasks : ∀ name q, statement ≠ .single name q true)
    (hcreates : ∀ name p args, statement ≠ .create name p args) :
    (s.afterStep step).Spared catalog captured base := by
  subst hstep
  exact h.afterStep ⟨hasks, fun name p args hcreate => absurd hcreate (hcreates name p args),
    fun p body _ hinner => absurd (hbody.symm.trans hinner) (by simp)⟩

/-- One more step around a body. -/
theorem afterBody (h : s.Spared catalog captured base) {statement : Statement}
    {release : Option Release} {needs : List Step} {step : Step} {body : Plan}
    (hstep : step = t.draft scope statement release needs) (hbody : statement.body? = some body)
    (hp : statement.provider? = some p)
    (hspared : p.IsFollowed → body.Spared catalog captured (base.enter p) p) :
    (s.afterStep step).Spared catalog captured base := by
  subst hstep
  refine h.afterStep ⟨fun name q hasks => ?_, fun name q args hcreate => ?_,
    fun q inner hq hinner => ?_⟩
  · change statement = _ at hasks
    rw [hasks] at hbody
    cases hbody
  · change statement = _ at hcreate
    rw [hcreate] at hbody
    cases hbody
  · cases hp.symm.trans hq
    cases hbody.symm.trans hinner
    exact hspared

/-- One more step that creates a value from arguments. -/
theorem afterCreation (h : s.Spared catalog captured base) {name : String}
    {args : List (Option String)} {release : Option Release} {needs : List Step} {step : Step}
    (hstep : step = t.draft scope (.create name p args) release needs)
    (hargs : ∀ r v, (r, some v) ∈ ((base.enter p).requests p).zip args → ∀ q,
      r.provider? = some q → q.lifetime = .single → q.Suspends catalog → captured q v) :
    (s.afterStep step).Spared catalog captured base := by
  subst hstep
  refine h.afterStep ⟨fun _ _ hasks => (by cases hasks), fun _ q used hcreate => ?_,
    fun _ _ _ hbody => (by cases hbody)⟩
  cases hcreate
  exact hargs

end State.Spared

theorem AsksAccessor.spares (hhosts : catalog.Hosts among) (hc : c.container.catalog = catalog)
    (h : AsksAccessor c scope env p s supply s') (hp : among p) (hsingle : p.lifetime = .single)
    (hright : s.answers.Right catalog among) (hnot : ¬ p.Suspends catalog)
    (hs : s.Spared catalog captured base) : s'.Spared catalog captured base := by
  subst hc
  cases h with
  | @sync answers t asking _ ht hasking =>
      have ht' : t.Spared c.container.catalog captured base := hs.congr (by rw [ht]; rfl)
      exact (ht'.afterPlain hasking rfl (by simp) (by simp)).congr rfl
  | async hanswer =>
      exact absurd ((Survey.suspendsWith_exact hhosts hp hsingle hright hanswer).1.mp rfl) hnot

theorem CreatesValue.spares {name : String} {args : List (Option String)} {needs : List Step}
    {step : Step} (h : CreatesValue scope env p name args needs s step s')
    (hs : s.Spared catalog captured base)
    (hargs : ∀ r v, (r, some v) ∈ ((base.enter p).requests p).zip args → ∀ q,
      r.provider? = some q → q.lifetime = .single → q.Suspends catalog → captured q v) :
    s'.Spared catalog captured base := by
  cases h with
  | plain _ _ hcreating => exact hs.afterCreation hcreating hargs
  | @awaited t creating _ _ _ ht hcreating hwaiting =>
      have ht' : t.Spared catalog captured base := hs.congr (by rw [ht]; rfl)
      exact (ht'.afterCreation hcreating hargs).afterPlain hwaiting rfl (by simp) (by simp)
  | initialized _ _ hcreating hstarting =>
      exact (hs.afterCreation hcreating hargs).afterPlain hstarting rfl (by simp) (by simp)
  | @initializedAwaited t creating starting _ _ _ hcreating ht hstarting hwaiting =>
      have ht' : t.Spared catalog captured base :=
        (hs.afterCreation hcreating hargs).congr (by rw [ht]; rfl)
      exact (ht'.afterPlain hstarting rfl (by simp) (by simp)).afterPlain hwaiting rfl (by simp)
        (by simp)

theorem EmitsDelegate.spares {name : String} {body : Plan} {needs : List Step} {step : Step}
    (h : EmitsDelegate scope p name body needs s step s') (hs : s.Spared catalog captured base)
    (hspared : p.IsFollowed → body.Spared catalog captured (base.enter p) p) :
    s'.Spared catalog captured base := by
  cases h with
  | plain _ hcreating => exact hs.afterBody hcreating rfl rfl hspared
  | registered _ hopening hcreating =>
      exact (hs.afterPlain hopening rfl (by simp) (by simp)).afterBody hcreating rfl rfl hspared

/-- The singletons ahead of a delegate are supplied if those below it are. -/
theorem Hoists.supplied_ahead {isAsync : Bool} {ahead : List Provider}
    (h : Hoists c scope env p isAsync s ahead s')
    (hsupplied : Supplied catalog stock env (Environment.given p)) :
    ∀ r ∈ ahead.map Environment.given, Supplied catalog stock env r := by
  intro r hr
  obtain ⟨q, hq, rfl⟩ := List.mem_map.mp hr
  obtain ⟨answers, hahead⟩ := h.found hq
  obtain ⟨hsingle, x, hx, hxq⟩ := Survey.singletonsAhead_opened true hahead q hq
  refine .of_single fun _ hq' => ?_
  cases hq'
  exact ⟨hsingle, hsupplied true x hx q hxq hsingle⟩

/-- The arguments of a creation that stand for singletons that suspend. -/
theorem ObtainsEach.stocked {requests : List Request} {supplies : List (Option Supply)}
    (h : ObtainsEach c scope env requests s supplies s') (hs : s.Holds stock)
    (hsupplied : ∀ r ∈ requests, Supplied catalog stock env r) :
    ∀ r v, (r, some v) ∈ requests.zip (namesOf supplies) → ∀ q, r.provider? = some q →
      q.lifetime = .single → q.Suspends catalog →
        ∃ supply, stock q.identity supply ∧ supply.name = v := by
  -- Along the requests, with their arguments in step: what was in stock at the start is still noted
  -- when a later request is met, as nothing obtained in between takes a note away.
  induction requests generalizing s supplies with
  | nil =>
      cases h
      exact fun _ _ hzip => absurd hzip List.not_mem_nil
  | cons first rest ih =>
      intro r v hzip q hq hsingle hsuspends
      cases h with
      | supplied hprovider head tail =>
          rcases List.mem_cons.mp hzip with heq | hzip
          · obtain ⟨rfl, hv⟩ := Prod.mk.inj heq
            cases hprovider.symm.trans hq
            exact ⟨_, head.stocked hs ((hsupplied _ List.mem_cons_self).given hq) hsingle hsuspends,
              (Option.some.inj hv).symm⟩
          · exact ih tail (hs.keeps head.keeps) (fun r hr => hsupplied r (List.mem_cons_of_mem _ hr))
              r v hzip q hq hsingle hsuspends
      | leftOut _ _ tail =>
          rcases List.mem_cons.mp hzip with heq | hzip
          · cases (Prod.mk.inj heq).2
          · exact ih tail hs (fun r hr => hsupplied r (List.mem_cons_of_mem _ hr))
              r v hzip q hq hsingle hsuspends

/-- A variable that a body uses for a singleton is the one in stock. -/
def Stocked (among : Provider → Prop) (stock : Provider.Identity → Supply → Prop) (q : Provider)
    (v : String) : Prop :=
  among q ∧ ∃ supply, stock q.identity supply ∧ supply.name = v

mutual

/-- Obtaining a value asks for no singleton that suspends, where those are supplied. What is in stock
when it begins stays noted through all steps and is handed on to every body, so it is never asked for
anew. -/
theorem Obtains.spares {catalog : Catalog} {among : Provider → Prop}
    {stock : Provider.Identity → Supply → Prop} {c : Settings} (hhosts : catalog.Hosts among)
    (hc : c.container.catalog = catalog) {scope : Scope} {isTarget : Bool} {base env : Environment}
    {p : Provider} {s s' : State} {supply : Supply} :
    Obtains c scope isTarget env p s supply s' → scope.accessorOf? = none → base.catalog = catalog →
      Requested among base env p → Supplied catalog stock env (Environment.given p) →
      s.answers.Right catalog among → s.Holds stock →
      s.Spared catalog (Stocked among stock) base → s'.Spared catalog (Stocked among stock) base
  | .atHand _, _, _, _, _, _, _, hs | .parameter _, _, _, _, _, _, _, hs => hs
  -- An accessor is asked only for a singleton that was not noted, and of those that suspend all are.
  | .accessor hhand huses hasks, _, _, hasked, hsupplied, hright, hholds, hs => by
      have hsingle := lifetime_of_usesAccessor huses
      rw [atHand_of_single hsingle] at hhand
      exact hasks.spares hhosts hc hasked.among_self hsingle hright
        (hholds.not_suspends hsupplied hsingle hhand) hs
  | @Obtains.delegate _ _ _ _ _ _ result _ _ _ _ _ t _ _ _ _ _ body _ hp _ _ hhoists heach hlookup
      hbody hemits,
      hscope, hbase, hasked, hsupplied, hright, hholds, hs => by
      -- What suspends below the delegate is in stock, so that what was found ahead is not asked for anew
      -- either. The body starts with what the plan has noted, and finds the stock there. That of an
      -- asynchronous delegate may ask by itself: it is not followed.
      have hcatalog := hasked.catalog.trans hbase
      have hbodied : p.HasBody result := .delegate hp
      obtain ⟨hsteps, hnumbered, hobtained⟩ := hhoists.same
      have hright₁ := hhoists.right hhosts hcatalog hasked hright
      have hahead : Keeps (fun _ => True) s _ := .of_obtained hnumbered.ge hobtained
      have ht := heach.spares hhosts hc hscope hbase (hhoists.asked_ahead hasked)
        (hhoists.supplied_ahead hsupplied) hright₁ (hholds.keeps hahead) (hs.congr hsteps)
      have hholds' := hholds.keeps (hahead.trans heach.keeps)
      have hright' := heach.right hhosts hc hbase (.inl hscope) (hhoists.asked_ahead hasked) hright₁
      have hspared : p.IsFollowed →
          body.Spared catalog (Stocked among stock) (env.enter p) p := fun hfollowed =>
        hbody.spares hhosts hc rfl ((env.catalog_enter p).trans hcatalog)
          (hasked.inside hbodied hlookup) (hasked.value_inside hbodied hlookup)
          (hsupplied.body hfollowed hbodied hlookup) hright' (hholds'.forBody t)
      rw [hasked.enter_eq] at hspared
      exact (hemits.spares (ht.congr hbody.same.1) hspared).congr rfl
  | .ownedAgain _ _ ht _ hstep, _, _, _, _, _, _, hs => by
      subst ht
      exact (hs.congr rfl).afterPlain (s := s.afterName) hstep rfl (by simp) (by simp)
  | @Obtains.owned _ _ _ _ _ _ value _ _ _ t u v _ _ body _ _ hp _ ht _ hlookup hbody hdefining _ hv
      hstep, _, hbase, hasked, hsupplied, hright, hholds, hs => by
      -- The body of an owned value is always followed, and starts with what the plan has noted so
      -- far.
      have hcatalog := hasked.catalog.trans hbase
      have hbodied : p.HasBody value := .owned hp
      have hfollowed : p.IsFollowed := by
        rw [hp]
        rintro ⟨hdelegate, -⟩
        cases hdelegate
      have hstart : Keeps (fun _ => True) s t := ht ▸ .afterName s
      have ht' : t.Spared catalog (Stocked among stock) base := hs.congr (by rw [ht]; rfl)
      have hspared : body.Spared catalog (Stocked among stock) (env.enter p) p :=
        hbody.spares hhosts hc rfl ((env.catalog_enter p).trans hcatalog)
          (hasked.inside hbodied hlookup) (hasked.value_inside hbodied hlookup)
          (hsupplied.body hfollowed hbodied hlookup) (ht ▸ hright)
          ((hholds.keeps hstart).forBody t)
      rw [hasked.enter_eq] at hspared
      have hu : u.afterName.Spared catalog (Stocked among stock) base := ht'.congr hbody.same.1
      have hdefined := hu.afterBody hdefining rfl rfl fun _ => hspared
      have hv' : v.Spared catalog (Stocked among stock) base := hdefined.congr (by rw [hv]; rfl)
      exact hv'.afterPlain hstep rfl (by simp) (by simp)
  | .value hp hhand huses _ heach hcreates, hscope, hbase, hasked, hsupplied, hright, hholds, hs => by
      have hbelow : ∀ r ∈ (env.enter p).requests p, ∀ q, r.provider? = some q →
          Requested among base (env.enter p) q :=
        fun r hr q hq => hasked.request hp huses (.inl hscope) hr hq
      have hnamed : Keeps (fun _ => True) s s.afterName := .afterName s
      have hholds' := hholds.keeps hnamed
      -- Below a singleton that is created here nothing suspends; below anything else the survey has
      -- looked.
      have hsupplies : ∀ r ∈ (env.enter p).requests p, Supplied catalog stock (env.enter p) r := by
        intro r hr
        by_cases hsingle : p.lifetime = .single
        · rw [atHand_of_single hsingle] at hhand
          exact .below_single hscope (hasked.catalog.trans hbase) hp hsingle huses
            (hholds.not_suspends hsupplied hsingle hhand) hr
        · exact hsupplied.next ⟨isFollowed_of_isCreated hp, hsingle⟩ hr
      have ht := heach.spares hhosts hc hscope hbase hbelow hsupplies hright hholds' (hs.congr rfl)
      have hargs := heach.stocked hholds' hsupplies
      rw [hasked.enter_eq] at hargs hbelow
      refine (hcreates.spares ht fun r v hzip q hq hsingle hsuspends => ?_).congr
        (State.afterValue_steps _ _ _)
      exact ⟨(hbelow r (List.of_mem_zip hzip).1 q hq).among_self, hargs r v hzip q hq hsingle hsuspends⟩

/-- Obtaining several values asks for no singleton that suspends, where those are supplied. -/
theorem ObtainsEach.spares {catalog : Catalog} {among : Provider → Prop}
    {stock : Provider.Identity → Supply → Prop} {c : Settings} (hhosts : catalog.Hosts among)
    (hc : c.container.catalog = catalog) {scope : Scope} {base env : Environment}
    {requests : List Request} {s s' : State} {supplies : List (Option Supply)} :
    ObtainsEach c scope env requests s supplies s' → scope.accessorOf? = none →
      base.catalog = catalog →
      (∀ r ∈ requests, ∀ q, r.provider? = some q → Requested among base env q) →
      (∀ r ∈ requests, Supplied catalog stock env r) → s.answers.Right catalog among →
      s.Holds stock → s.Spared catalog (Stocked among stock) base →
      s'.Spared catalog (Stocked among stock) base
  | .nil, _, _, _, _, _, _, hs => hs
  | .supplied hprovider head tail, hscope, hbase, hasked, hsupplied, hright, hholds, hs => by
      have hhead := hasked _ List.mem_cons_self _ hprovider
      have ht := head.spares hhosts hc hscope hbase hhead
        ((hsupplied _ List.mem_cons_self).given hprovider) hright hholds hs
      exact tail.spares hhosts hc hscope hbase (fun r hr => hasked r (List.mem_cons_of_mem _ hr))
        (fun r hr => hsupplied r (List.mem_cons_of_mem _ hr))
        (head.right hhosts hc hbase (.inl hscope) hhead hright) (hholds.keeps head.keeps) ht
  | .leftOut _ _ tail, hscope, hbase, hasked, hsupplied, hright, hholds, hs =>
      tail.spares hhosts hc hscope hbase (fun r hr => hasked r (List.mem_cons_of_mem _ hr))
        (fun r hr => hsupplied r (List.mem_cons_of_mem _ hr)) hright hholds hs

/-- The body of a provider asks for no singleton that suspends, where those are supplied. -/
theorem Assembles.spares {catalog : Catalog} {among : Provider → Prop}
    {stock : Provider.Identity → Supply → Prop} {c : Settings} (hhosts : catalog.Hosts among)
    (hc : c.container.catalog = catalog) {scope : Scope} {base : Environment}
    {owner target : Provider} {known : List (Provider.Identity × Supply)} {s s' : State}
    {plan : Plan} :
    Assembles c scope base target known s plan s' → scope.accessorOf? = none →
      base.catalog = catalog → Requested among base base target →
      (∀ r ∈ base.requests owner, r.provider? = some target) →
      Supplied catalog stock base (Environment.given target) → s.answers.Right catalog among →
      (s.forBody known).Holds stock → plan.Spared catalog (Stocked among stock) base owner
  | .body hobtains harranges, hscope, hbase, hasked, hvalue, hsupplied, hright, hholds => by
      have hspared := hobtains.spares hhosts hc hscope hbase hasked hsupplied hright hholds
        fun _ hmem => absurd hmem List.not_mem_nil
      have harranged : ∀ step ∈ _, step ∈ _ := fun step => (harranges.perm.mem_iff (a := step)).mp
      refine .plan (fun step hstep => (hspared step (harranged step hstep)).asks) ?_
        fun step hstep => (hspared step (harranged step hstep)).body
      rintro r v (⟨hstep, hcreate, hzip⟩ | hr) q hq hsingle hsuspends
      · exact (hspared _ (harranged _ hstep)).arguments _ _ _ hcreate r v hzip q hq hsingle hsuspends
      · cases (hvalue r hr).symm.trans hq
        exact ⟨hasked.among_self, _, hobtains.stocked hholds hsupplied hsingle hsuspends, rfl⟩

end

end Assembly

end Wiring
