import Wiring.Proofs.Assembly.Derivation
import Wiring.Proofs.Plan.Tree
import Wiring.Proofs.Survey.Exactness

/-!
# Plans in which nothing waits where nothing can

What is sound at the place where it is resolved is planned without suspending where nothing can wait:
in a synchronous plan, and in the synchronous bodies of any plan.

* `Statement.isQuiet`, `Plan.IsQuiet` — nothing suspends.
* `Plan.Calm` — nothing suspends in the plan, if it is synchronous, or in any synchronous body in it.
* `Vouched` — a place of the container that is sound all the way down.
* `Obtains.calm`, `Assembles.calm` — what is vouched for is planned calmly.
* `planResolution_calm`, `planAccessor_calm` — and so are plans as a whole.
-/

namespace Wiring

/-- A statement does not suspend: it neither waits nor starts anything to be waited for. -/
def Statement.isQuiet : Statement → Bool
  | .await .. => false
  | .single _ _ isAsync | .start _ _ isAsync => !isAsync
  | .create _ provider _ => !provider.isAsync
  | .delegate .. | .registry .. | .ownedFunction .. | .owned .. => true

/-- Nothing in the plan suspends; what is in its bodies is not considered. -/
def Plan.IsQuiet (plan : Plan) : Prop :=
  ∀ step ∈ plan.steps, step.statement.isQuiet = true

/-- Nothing suspends in a plan where waiting is not possible, and the same goes for the bodies in it.
The singletons asked for, each with whether its accessor suspends, are admitted. -/
inductive Plan.Calm (asked : Provider → Bool → Prop) : Bool → Plan → Prop
  | plan {isAsync : Bool} {plan : Plan} (quiet : isAsync = false → plan.IsQuiet)
      (asks : ∀ step ∈ plan.steps, ∀ name p answer, step.statement = .single name p answer →
        asked p answer)
      (bodies : ∀ step ∈ plan.steps, ∀ body, step.statement.body? = some body →
        Plan.Calm asked step.statement.isBodyAsync body) : Plan.Calm asked isAsync plan

/-- The part of one step. -/
structure Step.Calm (asked : Provider → Bool → Prop) (isAsync : Bool) (step : Step) : Prop where
  quiet : isAsync = false → step.statement.isQuiet = true
  asks : ∀ name p answer, step.statement = .single name p answer → asked p answer
  body : ∀ body, step.statement.body? = some body → body.Calm asked step.statement.isBodyAsync

section

variable {asked : Provider → Bool → Prop} {isAsync : Bool} {plan : Plan}

theorem Plan.Calm.isQuiet (h : plan.Calm asked false) : plan.IsQuiet := by
  cases h with
  | plan quiet _ _ => exact quiet rfl

/-- In a calm plan every body in it is calm. -/
theorem Plan.Calm.within (h : plan.Calm asked isAsync) {around : List (Plan × Step)} {nested : Plan}
    (hwithin : plan.Within around nested) : ∃ isAsync, nested.Calm asked isAsync := by
  induction hwithin with
  | root => exact ⟨isAsync, h⟩
  | body _ hcarrier hbody ih =>
      obtain ⟨_, hplan⟩ := ih
      cases hplan with
      | plan _ _ bodies => exact ⟨_, bodies _ hcarrier _ hbody⟩

/-- Nothing in a synchronous body suspends. -/
theorem Plan.Calm.body_isQuiet (h : plan.Calm asked isAsync) {around : List (Plan × Step)}
    {nested body : Plan} (hwithin : plan.Within around nested) {carrier : Step}
    (hcarrier : carrier ∈ nested.steps) (hbody : carrier.statement.body? = some body)
    (hsync : carrier.statement.isBodyAsync = false) : body.IsQuiet := by
  obtain ⟨_, hnested⟩ := h.within hwithin
  cases hnested with
  | plan _ _ bodies =>
      have hcalm := bodies _ hcarrier _ hbody
      rw [hsync] at hcalm
      exact hcalm.isQuiet

/-- Every singleton that a calm plan asks for is admitted, those asked for in bodies too. -/
theorem Plan.Calm.asks_tree (h : plan.Calm asked isAsync) {step : Step} (hstep : step ∈ plan.tree)
    {name : String} {p : Provider} {answer : Bool} (hp : step.statement = .single name p answer) :
    asked p answer := by
  induction h with
  | @plan isAsync plan _ asks _ ih =>
      rw [Plan.tree_eq] at hstep
      rcases mem_treeOf.mp hstep with htop | ⟨carrier, hcarrier, body, hbody, hinner⟩
      · exact asks _ htop _ _ _ hp
      · exact ih carrier hcarrier body hbody hinner

end

/-! ### What is vouched for -/

/-- A place of a container that is sound all the way down. -/
structure Vouched (catalog : Catalog) (among : Provider → Prop) (x : Place) : Prop where
  belongs : x.Belongs catalog among
  sound : ∀ y, x.Leads y → y.IsSound

/-- A singleton that is vouched for at its accessor, which suspends or not as told. -/
structure VouchedSingleton (catalog : Catalog) (among : Provider → Prop) (p : Provider)
    (answer : Bool) : Prop where
  single : p.lifetime = .single
  met : among p
  suspends : answer = true ↔ p.Suspends catalog
  sound : ∀ x, (Place.ofProvider catalog answer p).Leads x → x.IsSound

namespace Vouched

variable {catalog : Catalog} {among : Provider → Prop} {x y : Place} {p : Provider}

theorem next (h : Vouched catalog among x) (hxy : x.Next y) : Vouched catalog among y :=
  ⟨h.belongs.next hxy, fun z hyz => h.sound z (.head hxy hyz)⟩

/-- What is vouched for at a request is vouched for by itself. -/
theorem given (h : Vouched catalog among x) (hp : x.request.provider? = some p) :
    Vouched catalog among ⟨x.env, x.isAsync, Environment.given p⟩ := by
  have hleads : ∀ y, (Place.mk x.env x.isAsync (Environment.given p)).Leads y →
      y = ⟨x.env, x.isAsync, Environment.given p⟩ ∨ x.Leads y := by
    intro y hy
    refine (Place.leadsThrough_of_next hp (fun z hz => ?_) (Place.leadsThrough_true hy)).imp_right
      Place.LeadsThrough.leads
    obtain ⟨hprovider, hr⟩ := hz
    cases hprovider
    exact .intro hp hr
  refine ⟨⟨h.belongs.catalog, fun y hy q hq => ?_⟩, fun y hy => ?_⟩
  · rcases hleads y hy with rfl | hy
    · cases hq
      exact h.belongs.within.provider hp
    · exact h.belongs.within y hy q hq
  · rcases hleads y hy with rfl | hy
    · have hsound := h.sound x .refl
      unfold Place.IsSound at hsound ⊢
      rw [hp] at hsound
      exact hsound
    · exact h.sound y hy

/-- The value of a delegate's body is vouched for with the delegate. -/
theorem delegate {env : Environment} {isAsync own : Bool} {ty result : Ty}
    {params : List Parameter} {target : Provider}
    (h : Vouched catalog among ⟨env, isAsync, Environment.given p⟩)
    (hp : p = .delegate ty result params own) (hlookup : (env.enter p).lookup result = some target) :
    Vouched catalog among ⟨env.enter p, own, Environment.given target⟩ := by
  subst hp
  exact (h.next (.intro rfl (List.mem_singleton_self _))).given hlookup

/-- The value of an owned body is vouched for with the owned value. -/
theorem owned {env : Environment} {isAsync own : Bool} {ty value : Ty} {target : Provider}
    (h : Vouched catalog among ⟨env, isAsync, Environment.given p⟩) (hp : p = .owned ty value own)
    (hlookup : (env.enter p).lookup value = some target) :
    Vouched catalog among ⟨env.enter p, own, Environment.given target⟩ := by
  subst hp
  exact (h.next (.intro rfl (List.mem_singleton_self _))).given hlookup

/-- Where nothing can wait, only delegates are asynchronous. -/
theorem isAsync_eq_false (h : Vouched catalog among x) (hp : x.request.provider? = some p)
    (hsync : x.isAsync = false) (hdelegate : p.isDelegate = false) : p.isAsync = false := by
  have hsound := h.sound x .refl
  unfold Place.IsSound at hsound
  simp only [hp, hsync, hdelegate] at hsound
  simpa using hsound

/-- A singleton vouched for is vouched for at its accessor. -/
theorem singleton {answer : Bool} (h : Vouched catalog among x)
    (hp : x.request.provider? = some p) (hsingle : p.lifetime = .single)
    (hanswer : answer = true ↔ p.Suspends catalog) :
    VouchedSingleton catalog among p answer :=
  ⟨hsingle, h.belongs.within.provider hp, hanswer,
    Place.sound_of_suspends hsingle
      (Place.sound_of_single hp hsingle h.belongs.catalog h.sound) hanswer⟩

end Vouched

namespace Assembly

variable {catalog : Catalog} {among : Provider → Prop} {isAsync : Bool} {c : Settings} {scope : Scope}
  {env : Environment} {p : Provider} {s s' t u : State}

/-- The steps so far are calm, and what is remembered of the singletons is right. -/
structure State.Calm (catalog : Catalog) (among : Provider → Prop) (isAsync : Bool) (s : State) :
    Prop where
  steps : ∀ step ∈ s.steps, step.Calm (VouchedSingleton catalog among) isAsync
  answers : s.answers.Right catalog among

namespace State.Calm

theorem congr (h : s.Calm catalog among isAsync) (hsteps : s'.steps = s.steps)
    (hanswers : s'.answers = s.answers) : s'.Calm catalog among isAsync :=
  ⟨hsteps ▸ h.steps, hanswers ▸ h.answers⟩

theorem afterName (h : s.Calm catalog among isAsync) : s.afterName.Calm catalog among isAsync :=
  h.congr rfl rfl

theorem afterNote (h : s.Calm catalog among isAsync) (p : Provider) (supply : Supply) :
    (s.afterNote p supply).Calm catalog among isAsync :=
  h.congr rfl rfl

theorem afterValue (h : s.Calm catalog among isAsync) (p : Provider) (supply : Supply) :
    (s.afterValue p supply).Calm catalog among isAsync := by
  unfold State.afterValue
  split
  · exact h.afterNote p supply
  · exact h

theorem withAnswers (h : s.Calm catalog among isAsync) {answers : Survey.Answers}
    (hright : answers.Right catalog among) : (s.withAnswers answers).Calm catalog among isAsync :=
  ⟨h.steps, hright⟩

theorem afterStep (h : s.Calm catalog among isAsync) {step : Step}
    (hstep : step.Calm (VouchedSingleton catalog among) isAsync) :
    (s.afterStep step).Calm catalog among isAsync := by
  refine ⟨fun step' hmem => ?_, h.answers⟩
  rcases List.mem_append.mp hmem with hmem | hmem
  · exact h.steps step' hmem
  · obtain rfl := List.mem_singleton.mp hmem
    exact hstep

/-- One more step that asks for no singleton and has no body. -/
theorem afterPlain (h : s.Calm catalog among isAsync) {statement : Statement}
    {release : Option Release} {needs : List Step} {step : Step}
    (hstep : step = t.draft scope statement release needs) (hbody : statement.body? = none)
    (hsingle : ∀ name p answer, statement ≠ .single name p answer)
    (hquiet : isAsync = false → statement.isQuiet = true) :
    (s.afterStep step).Calm catalog among isAsync := by
  subst hstep
  exact h.afterStep ⟨hquiet, fun name p answer heq => absurd heq (hsingle name p answer),
    fun body hbody' => absurd (hbody.symm.trans hbody') (by simp)⟩

/-- One more step around a body. -/
theorem afterBody (h : s.Calm catalog among isAsync) {statement : Statement}
    {release : Option Release} {needs : List Step} {step : Step} {body : Plan}
    (hstep : step = t.draft scope statement release needs) (hbody : statement.body? = some body)
    (hcalm : body.Calm (VouchedSingleton catalog among) statement.isBodyAsync) :
    (s.afterStep step).Calm catalog among isAsync := by
  subst hstep
  refine h.afterStep ⟨fun _ => ?_, fun name p answer heq => ?_, fun body' hbody' => ?_⟩
  · change statement.isQuiet = true
    cases statement <;> first | rfl | cases hbody
  · change statement = _ at heq
    rw [heq] at hbody
    cases hbody
  · cases hbody.symm.trans hbody'
    exact hcalm

end State.Calm

/-! ### The parts of a derivation -/

theorem AsksAccessor.calm {supply : Supply} (hhosts : catalog.Hosts among)
    (hc : c.container.catalog = catalog)
    (hx : Vouched catalog among ⟨env, scope.isAsync, Environment.given p⟩)
    (hsingle : p.lifetime = .single) (h : AsksAccessor c scope env p s supply s')
    (hs : s.Calm catalog among scope.isAsync) : s'.Calm catalog among scope.isAsync := by
  subst hc
  have hmet := hx.belongs.within.provider rfl
  cases h with
  | @sync answers t asking hanswer ht hasking =>
      -- The answer is exact, so the accessor asked for suspends just if its singleton does.
      obtain ⟨hexact, hright⟩ := Survey.suspendsWith_exact hhosts hmet hsingle hs.answers hanswer
      subst ht
      refine (State.Calm.afterStep (hs.afterName.withAnswers hright) ?_).afterNote _ _
      subst hasking
      refine ⟨fun _ => rfl, fun name q answer heq => ?_, fun body hbody => by cases hbody⟩
      cases heq
      exact hx.singleton rfl hsingle hexact
  | @async answers t asking waiting hanswer ht hasking hwaiting =>
      obtain ⟨hexact, hright⟩ := Survey.suspendsWith_exact hhosts hmet hsingle hs.answers hanswer
      -- Where nothing can wait, a singleton vouched for does not suspend.
      have hasync : scope.isAsync = true := by
        cases hsync : scope.isAsync with
        | true => rfl
        | false =>
            exact absurd (hexact.mp rfl)
              (Place.not_suspends_of_sound rfl hsingle hx.belongs.catalog hsync hx.sound)
      subst ht
      have hasked : (((s.afterName.withAnswers answers).afterName).afterStep asking).Calm
          c.container.catalog among scope.isAsync := by
        refine State.Calm.afterStep (hs.afterName.withAnswers hright).afterName ?_
        subst hasking
        refine ⟨fun hsync => absurd (hasync.symm.trans hsync) (by simp),
          fun name q answer heq => ?_, fun body hbody => by cases hbody⟩
        cases heq
        exact hx.singleton rfl hsingle hexact
      exact (hasked.afterPlain hwaiting rfl (by simp)
        fun hsync => absurd (hasync.symm.trans hsync) (by simp)).afterNote _ _

theorem CreatesValue.calm {name : String} {args : List (Option String)} {needs : List Step}
    {step : Step} (h : CreatesValue scope env p name args needs s step s')
    (hs : s.Calm catalog among scope.isAsync)
    (hsync : scope.isAsync = false → p.isAsync = false) : s'.Calm catalog among scope.isAsync := by
  have hquiet : ∀ name args, scope.isAsync = false →
      (Statement.create name p args).isQuiet = true := fun name args hscope => by
    simp [Statement.isQuiet, hsync hscope]
  have hwaits : p.isAsync = true → ∀ {P : Prop}, scope.isAsync = false → P :=
    fun hasync _ hscope => absurd (hasync.symm.trans (hsync hscope)) (by simp)
  cases h with
  | plain _ _ hcreating =>
      exact hs.afterPlain hcreating rfl (by simp) (hquiet _ _)
  | awaited _ hasync ht hcreating hwaiting =>
      subst ht
      exact (hs.afterName.afterPlain hcreating rfl (by simp) (hquiet _ _)).afterPlain hwaiting rfl
        (by simp) (hwaits hasync)
  | initialized _ _ hcreating hstarting =>
      exact (hs.afterPlain hcreating rfl (by simp) (hquiet _ _)).afterPlain hstarting rfl (by simp)
        fun _ => rfl
  | initializedAwaited _ hasync hcreating ht hstarting hwaiting =>
      subst ht
      exact ((hs.afterPlain hcreating rfl (by simp) (hquiet _ _)).afterName.afterPlain hstarting rfl
        (by simp) (hwaits hasync)).afterPlain hwaiting rfl (by simp) (hwaits hasync)

theorem EmitsDelegate.calm {name : String} {body : Plan} {needs : List Step} {step : Step}
    (h : EmitsDelegate scope p name body needs s step s') (hs : s.Calm catalog among scope.isAsync)
    (hbody : body.Calm (VouchedSingleton catalog among) p.isAsync) :
    s'.Calm catalog among scope.isAsync := by
  cases h with
  | plain _ hcreating => exact hs.afterBody hcreating rfl hbody
  | registered _ hopening hcreating =>
      exact (hs.afterPlain hopening rfl (by simp) fun _ => rfl).afterBody hcreating rfl hbody

/-- Where a synchronous delegate is vouched for, its body needs no singleton that suspends, so that none
is obtained ahead of it. -/
theorem Hoists.calm {ty result : Ty} {params : List Parameter} {own : Bool} {ahead : List Provider}
    (hhosts : catalog.Hosts among)
    (hx : Vouched catalog among ⟨env, scope.isAsync, Environment.given p⟩)
    (hp : p = .delegate ty result params own) (h : Hoists c scope env p own s ahead s')
    (hs : s.Calm catalog among scope.isAsync) :
    ahead = [] ∧ s'.Calm catalog among scope.isAsync := by
  unfold Hoists at h
  split at h
  · rename_i hwaits
    obtain ⟨-, hsync⟩ := Bool.and_eq_true_iff.mp hwaits
    rw [Bool.not_eq_true'] at hsync
    obtain ⟨answers, hahead, rfl⟩ := h
    have hcatalog : env.catalog = catalog := hx.belongs.catalog
    subst hcatalog
    obtain ⟨hright, hfound⟩ :=
      Survey.singletonsAhead_exact hhosts hx.belongs.within hs.answers hahead
    refine ⟨List.eq_nil_iff_forall_not_mem.mpr fun q hq => ?_, hs.withAnswers hright⟩
    obtain ⟨hsingle, hsuspends, y, hy, hyq⟩ := hfound q hq
    rcases Relation.ReflTransGen.cases_head hy with rfl | ⟨z, ⟨-, hnext⟩, hzy⟩
    · subst hp
      cases hyq
      cases hsingle
    · -- In the body nothing can wait, so nothing vouched for there suspends.
      have hz := hx.next hnext
      have hzsync : z.isAsync = false := by
        subst hp
        obtain ⟨hprovider, -⟩ := hnext
        cases hprovider
        exact hsync
      have hzy' : z.LeadsThrough Provider.IsFollowed y := hzy
      have hbelongs : y.env.catalog = env.catalog := Place.catalog_of_leads hy.leads
      exact Place.not_suspends_of_sound hyq hsingle hbelongs
        (Place.isAsync_of_sound hzsync hz.sound hzy')
        (fun w hw => hz.sound w (hzy'.leads.trans hw)) hsuspends
  · obtain ⟨rfl, rfl⟩ := h
    exact ⟨rfl, hs⟩

/-! ### Derivations -/

theorem waits_of_isCreated (hp : p.isCreated = true) (isAsync : Bool) : p.waits isAsync = isAsync := by
  cases p <;> first | rfl | cases hp

theorem isDelegate_of_isCreated (hp : p.isCreated = true) : p.isDelegate = false := by
  cases p <;> first | rfl | cases hp

theorem lifetime_of_usesAccessor {isTarget : Bool} (h : usesAccessor scope isTarget p = true) :
    p.lifetime = .single := by
  cases p <;> simp_all [usesAccessor]

mutual

/-- Obtaining a value that is vouched for keeps the plan calm: where nothing can wait, no step suspends
and no singleton is obtained ahead of a delegate; and every accessor is asked for what it gives. -/
theorem Obtains.calm {c : Settings} (hhosts : catalog.Hosts among)
    (hc : c.container.catalog = catalog) {scope : Scope} {isTarget : Bool} {env : Environment}
    {p : Provider} {s s' : State} {supply : Supply} :
    Obtains c scope isTarget env p s supply s' →
      Vouched catalog among ⟨env, scope.isAsync, Environment.given p⟩ →
      s.Calm catalog among scope.isAsync → s'.Calm catalog among scope.isAsync
  | .atHand _, _, hs | .parameter _, _, hs => hs
  | .accessor _ huses hasks, hx, hs =>
      hasks.calm hhosts hc hx (lifetime_of_usesAccessor huses) hs
  -- A delegate that is vouched for has nothing ahead, and its body decides for itself whether it waits:
  -- the plan in it is calm by induction and stays as it is in this one.
  | .delegate hp _ _ hhoists heach hlookup hbody hemits, hx, hs => by
      obtain ⟨hahead, hs₁⟩ := hhoists.calm hhosts hx hp hs.afterName
      have ht := heach.calm hhosts hc (by simp [hahead]) hs₁
      obtain ⟨hplan, hright⟩ := hbody.calm hhosts hc (hx.delegate hp hlookup) ht.answers
      have hu : State.Calm catalog among scope.isAsync _ := ⟨hbody.same.1 ▸ ht.steps, hright⟩
      exact (hemits.calm hu (by rw [hp]; exact hplan)).afterNote _ _
  | .ownedAgain _ _ ht _ hstep, _, hs => by
      subst ht
      exact hs.afterName.afterPlain hstep rfl (by simp) fun _ => rfl
  | .owned hp _ ht _ hlookup hbody hdefining _ hv hstep, hx, hs => by
      have ht' : State.Calm catalog among scope.isAsync _ := ht ▸ hs.afterName
      obtain ⟨hplan, hright⟩ := hbody.calm hhosts hc (hx.owned hp hlookup) ht'.answers
      have hu : State.Calm catalog among scope.isAsync _ := ⟨hbody.same.1 ▸ ht'.steps, hright⟩
      have hdefined := hu.afterName.afterBody hdefining rfl (by
        change Plan.Calm _ p.isAsync _
        rw [hp]
        exact hplan)
      exact (hv ▸ hdefined.afterNote _ _).afterPlain hstep rfl (by simp) fun _ => rfl
  | .value (p := p) hp _ _ _ heach hcreates, hx, hs => by
      -- Below a created value it can wait just if it can here; and what is vouched for is not
      -- asynchronous where it cannot.
      have hbelow : ∀ r ∈ (env.enter p).requests p,
          Vouched catalog among ⟨env.enter p, scope.isAsync, r⟩ := fun r hr => by
        have hnext := hx.next (.intro rfl hr)
        rwa [waits_of_isCreated hp] at hnext
      exact (hcreates.calm (heach.calm hhosts hc hbelow hs.afterName) fun hsync =>
        hx.isAsync_eq_false rfl hsync (isDelegate_of_isCreated hp)).afterValue _ _

/-- Obtaining values that are vouched for keeps the plan calm. -/
theorem ObtainsEach.calm {c : Settings} (hhosts : catalog.Hosts among)
    (hc : c.container.catalog = catalog) {scope : Scope} {env : Environment}
    {requests : List Request} {s s' : State} {supplies : List (Option Supply)} :
    ObtainsEach c scope env requests s supplies s' →
      (∀ r ∈ requests, Vouched catalog among ⟨env, scope.isAsync, r⟩) →
      s.Calm catalog among scope.isAsync → s'.Calm catalog among scope.isAsync
  | .nil, _, hs => hs
  | .supplied hprovider head tail, hx, hs =>
      tail.calm hhosts hc (fun r hr => hx r (List.mem_cons_of_mem _ hr))
        (head.calm hhosts hc ((hx _ List.mem_cons_self).given hprovider) hs)
  | .leftOut _ _ tail, hx, hs =>
      tail.calm hhosts hc (fun r hr => hx r (List.mem_cons_of_mem _ hr)) hs

/-- The plan of a body that is vouched for is calm. -/
theorem Assembles.calm {c : Settings} (hhosts : catalog.Hosts among)
    (hc : c.container.catalog = catalog) {scope : Scope} {env : Environment} {target : Provider}
    {known : List (Provider.Identity × Supply)} {s s' : State} {plan : Plan} :
    Assembles c scope env target known s plan s' →
      Vouched catalog among ⟨env, scope.isAsync, Environment.given target⟩ →
      s.answers.Right catalog among →
      plan.Calm (VouchedSingleton catalog among) scope.isAsync ∧ s'.answers.Right catalog among
  | .body hobtains harranges, hx, hs => by
      have hcalm := hobtains.calm hhosts hc hx ⟨fun _ hmem => (by cases hmem), hs⟩
      refine ⟨?_, hcalm.answers⟩
      have harranged : ∀ step ∈ _, step ∈ _ := fun step => (harranges.perm.mem_iff (a := step)).mp
      exact .plan (fun hsync step hstep => (hcalm.steps step (harranged step hstep)).quiet hsync)
        (fun step hstep => (hcalm.steps step (harranged step hstep)).asks)
        (fun step hstep => (hcalm.steps step (harranged step hstep)).body)

end

/-- A plan assembled on its own for what is vouched for is calm. -/
theorem run_calm {config : Config} {trigger : Trigger} {scope : Scope} {env : Environment}
    {target : Provider} {plan : Plan} (hhosts : env.catalog.Hosts among)
    (hx : Vouched env.catalog among ⟨env, scope.isAsync, Environment.given target⟩)
    (h : run config trigger scope env target = .ok plan) :
    plan.Calm (VouchedSingleton env.catalog among) scope.isAsync := by
  obtain ⟨s, hassembles⟩ := run_sound h
  exact (hassembles.calm hhosts rfl hx (.nil _ _)).1

end Assembly

section

variable {config : Config} {trigger : Trigger} {env : Environment} {among : Provider → Prop}
  {isAsync : Bool} {target : Provider} {plan : Plan}

theorem planResolution_calm (hhosts : env.catalog.Hosts among)
    (hx : Vouched env.catalog among ⟨env, isAsync, Environment.given target⟩)
    (h : planResolution config trigger env isAsync target = .ok plan) :
    plan.Calm (VouchedSingleton env.catalog among) isAsync := by
  unfold planResolution at h
  refine Assembly.run_calm hhosts ?_ h
  exact hx

theorem planAccessor_calm {asyncRelease : Bool} (hhosts : env.catalog.Hosts among)
    (hx : Vouched env.catalog among ⟨env, isAsync, Environment.given target⟩)
    (h : planAccessor config trigger env asyncRelease isAsync target = .ok plan) :
    plan.Calm (VouchedSingleton env.catalog among) isAsync := by
  unfold planAccessor at h
  refine Assembly.run_calm hhosts ?_ h
  exact hx

end

end Wiring
