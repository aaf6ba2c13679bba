import Wiring.Check
import Wiring.Proofs.Assembly.Derivation
import Wiring.Proofs.Extension.Demand

/-!
# What nobody asks for changes nothing

Over two catalogs that differ only in types nobody looks up, the check, the surveys and the assembly
are the same programs. They make the same requests, so they name, report and remember the same.

* `Check.visit_withCatalog`, `Survey.visit_withCatalog`, `Assembly.obtain_withCatalog`,
  `Assembly.assemble_withCatalog` — the programs over both catalogs.
* `Declarations.extend_unseen` — further providers that a root does not see.
-/

namespace Wiring

variable {a b : Catalog}

/-! ### The check -/

namespace Check

/-- The context over another catalog. -/
def Context.withCatalog (b : Catalog) (ctx : Context) : Context :=
  { ctx with env := ctx.env.withCatalog b }

theorem Context.enter_withCatalog (ctx : Context) (p : Provider) :
    (ctx.withCatalog b).enter p = (ctx.enter p).withCatalog b :=
  congrArg (fun env => { ctx.enter p with env }) (Environment.withCatalog_enter ctx.env p)

theorem isFirstVisit_withCatalog (ctx : Context) (p : Provider) :
    isFirstVisit (ctx.withCatalog b) p = isFirstVisit ctx p := by
  unfold isFirstVisit
  rw [Context.enter_withCatalog]
  rfl

/-- Over both catalogs a request is followed in the same way. The induction is on the budget. -/
theorem visit_withCatalog {c : Settings} {budget : Nat} {ctx : Context} {r : Request}
    (h : ctx.env.Ignores a b r) (habsent : r.provider? = none → b.resolve r.ty = a.resolve r.ty) :
    visit c budget (ctx.withCatalog b) r = visit c budget ctx r := by
  induction budget generalizing ctx r with
  | zero => rfl
  | succ budget ih =>
      unfold visit
      cases hp : r.provider? with
      | none =>
          have hresolve : (ctx.withCatalog b).env.resolve r.ty = ctx.env.resolve r.ty :=
            Environment.withCatalog_resolve ((habsent hp).trans (by rw [h.catalog]))
          simp only [reportUnresolved, hresolve]
      | some p =>
          have hbelow : (((ctx.withCatalog b).enter p).env.requests p).forM
                (visit c budget ((ctx.withCatalog b).enter p)) =
              ((ctx.enter p).env.requests p).forM (visit c budget (ctx.enter p)) := by
            rw [Context.enter_withCatalog]
            rw [show ((ctx.enter p).withCatalog b).env.requests p = (ctx.enter p).env.requests p from
              h.requests hp]
            exact Run.forM_congr fun below hmem => ih (h.next hp hmem) (h.absent hp hmem)
          simp only [isFirstVisit_withCatalog, hbelow]
          rfl

end Check

/-! ### The surveys -/

namespace Survey

variable {α : Type} {survey other : Survey α}

/-- The context over another catalog. -/
def Context.withCatalog (b : Catalog) (ctx : Context) : Context :=
  { ctx with env := ctx.env.withCatalog b }

theorem Context.enter_withCatalog (ctx : Context) (p : Provider) :
    (ctx.withCatalog b).enter p = (ctx.enter p).withCatalog b :=
  congrArg (fun env => { ctx.enter p with env }) (Environment.withCatalog_enter ctx.env p)

theorem isFirstVisit_withCatalog (ctx : Context) (p : Provider) :
    (isFirstVisit (ctx.withCatalog b) p : Walk α Bool) = isFirstVisit ctx p := by
  unfold isFirstVisit
  rw [show ((ctx.withCatalog b).env.enter p) = (ctx.env.enter p).withCatalog b from
    Environment.withCatalog_enter ctx.env p]
  rfl

/-- A survey of the second catalog that judges as one of the first does, wherever a request leads,
in settings that are the same otherwise. -/
structure Matches (a b : Catalog) (survey other : Survey α) : Prop where
  maxDepth : other.maxDepth = survey.maxDepth
  trigger : other.trigger = survey.trigger
  isSettled : other.isSettled = survey.isSettled
  judge : ∀ (env : Environment) r p, env.Ignores a b r → r.provider? = some p →
    other.judge p = survey.judge p

theorem Matches.refl (survey : Survey α) : Matches a b survey survey :=
  ⟨rfl, rfl, rfl, fun _ _ _ _ _ => rfl⟩

/-- Over both catalogs a request is surveyed in the same way. The induction is on the budget. -/
theorem visit_withCatalog (hmatches : Matches a b survey other) {budget : Nat} {ctx : Context}
    {r : Request} (h : ctx.env.Ignores a b r) :
    other.visit budget (ctx.withCatalog b) r = survey.visit budget ctx r := by
  induction budget generalizing ctx r with
  | zero =>
      unfold visit
      rw [hmatches.trigger, hmatches.maxDepth]
  | succ budget ih =>
      unfold visit
      rw [hmatches.trigger, hmatches.isSettled]
      cases hp : r.provider? with
      | none => rfl
      | some p =>
          have hask : other.ask p = survey.ask p := by
            unfold ask
            rw [hmatches.judge _ _ _ h hp]
          have hbelow : (((ctx.withCatalog b).enter p).env.requests p).forM
                (other.visit budget ((ctx.withCatalog b).enter p)) =
              ((ctx.enter p).env.requests p).forM (survey.visit budget (ctx.enter p)) := by
            rw [Context.enter_withCatalog]
            rw [show ((ctx.enter p).withCatalog b).env.requests p = (ctx.enter p).env.requests p from
              h.requests hp]
            exact Run.forM_congr fun below hmem => ih (h.next hp hmem)
          simp only [isFirstVisit_withCatalog, hask, hbelow]

theorem run_withCatalog (hmatches : Matches a b survey other) {env : Environment} {r : Request}
    (h : env.Ignores a b r) (start : α) :
    other.run (env.withCatalog b) r start = survey.run env r start := by
  unfold run
  rw [hmatches.maxDepth]
  rw [show (⟨env.withCatalog b, []⟩ : Context) = Context.withCatalog b ⟨env, []⟩ from rfl,
    show other.visit _ (Context.withCatalog b ⟨env, []⟩) r = survey.visit _ ⟨env, []⟩ r from
      visit_withCatalog hmatches h]

/-- Whether a singleton suspends is answered in the same way. -/
theorem suspendsWith_withCatalog {maxDepth : Nat} {trigger : Trigger} {env : Environment}
    {r : Request} {p : Provider} {container : Environment} (h : env.Ignores a b r)
    (hp : r.provider? = some p) (hsingle : p.lifetime = .single) (hcatalog : container.catalog = a) :
    suspendsWith maxDepth trigger (container.withCatalog b) p =
      suspendsWith maxDepth trigger container p := by
  have hroot : container.root.Ignores a b (Environment.given p) := h.of_single hp hsingle hcatalog
  have hsuspends : suspends maxDepth trigger (container.withCatalog b) p =
      suspends maxDepth trigger container p := by
    unfold suspends
    rw [Environment.withCatalog_root]
    exact run_withCatalog (.refl _) hroot false
  unfold suspendsWith
  rw [hsuspends]

/-- The singletons ahead of a delegate are the same. -/
theorem singletonsAhead_withCatalog {maxDepth : Nat} {trigger : Trigger} {env : Environment}
    {p : Provider} (h : env.Ignores a b (Environment.given p)) :
    singletonsAhead maxDepth trigger (env.withCatalog b) p =
      singletonsAhead maxDepth trigger env p := by
  have hmatches : Matches a b (suspendingSingletons maxDepth trigger env.root)
      (suspendingSingletons maxDepth trigger (env.root.withCatalog b)) := by
    refine ⟨rfl, rfl, rfl, fun env' r q hr hq => ?_⟩
    funext found
    simp only [suspendingSingletons]
    by_cases hsingle : q.lifetime = .single
    · rw [suspendsWith_withCatalog hr hq hsingle (show env.root.catalog = a from h.catalog)]
    · rw [if_neg hsingle, if_neg hsingle]
  unfold singletonsAhead
  rw [Environment.withCatalog_root]
  funext answers
  exact run_withCatalog hmatches h _

end Survey

/-! ### The assembly -/

namespace Assembly

/-- The settings over another catalog. -/
def Settings.withCatalog (b : Catalog) (c : Settings) : Settings :=
  { c with container := c.container.withCatalog b }

variable {c : Settings} {nested nested' : AssembleBody} {scope : Scope} {budget : Nat}
  {isTarget : Bool} {env : Environment} {r : Request} {p : Provider} {ty : Ty} {isAsync : Bool}

/-- Bodies are assembled in the same way over both catalogs. -/
def SameBodies (a b : Catalog) (nested nested' : AssembleBody) : Prop :=
  ∀ scope (env : Environment) target known, env.Ignores a b (Environment.given target) →
    nested' scope (env.withCatalog b) target known = nested scope env target known

theorem suspends_withCatalog (hc : c.container.catalog = a) (h : env.Ignores a b r)
    (hp : r.provider? = some p) (hsingle : p.lifetime = .single) :
    suspends (c.withCatalog b) p = suspends c p := by
  unfold suspends
  rw [show (c.withCatalog b).container = c.container.withCatalog b from rfl]
  rw [Survey.suspendsWith_withCatalog h hp hsingle hc]
  rfl

theorem askAccessor_withCatalog (hc : c.container.catalog = a)
    (h : env.Ignores a b (Environment.given p)) (hsingle : p.lifetime = .single) :
    askAccessor (c.withCatalog b) scope (env.withCatalog b) p = askAccessor c scope env p := by
  unfold askAccessor
  rw [suspends_withCatalog hc h rfl hsingle]
  rfl

theorem mem_demands_of_hasBody (hp : p.HasBody ty) : ty ∈ p.demands := by
  cases hp with
  | delegate hp => rw [hp]; exact List.mem_singleton_self _
  | owned hp => rw [hp]; exact List.mem_singleton_self _

/-- The body of a provider is assembled in the same way. -/
theorem assembleBody_withCatalog (hnested : SameBodies a b nested nested')
    (h : env.Ignores a b (Environment.given p)) (hp : p.HasBody ty) :
    assembleBody nested' scope ((env.enter p).withCatalog b) ty =
      assembleBody nested scope (env.enter p) ty := by
  unfold assembleBody
  have hcatalog : (env.enter p).catalog = a := (env.catalog_enter p).trans h.catalog
  rw [Environment.withCatalog_lookup (hcatalog ▸ h.within.provider rfl ty (mem_demands_of_hasBody hp))]
  cases hlookup : (env.enter p).lookup ty with
  | none => rfl
  | some target =>
      have htarget : (env.enter p).Ignores a b (Environment.given target) :=
        (h.next rfl (hp.request_mem _)).given hlookup
      exact bind_congr fun known => hnested _ _ _ _ htarget

theorem singletonsAhead_withCatalog (h : env.Ignores a b (Environment.given p)) :
    singletonsAhead (c.withCatalog b) (env.withCatalog b) p = singletonsAhead c env p := by
  unfold singletonsAhead
  rw [Survey.singletonsAhead_withCatalog h]
  rfl

/-- The singletons ahead of a delegate tell no difference either. -/
theorem ignores_of_ahead (h : env.Ignores a b (Environment.given p)) {s t : State}
    {ahead : List Provider} (hahead : singletonsAhead c env p s = .ok ahead t) {q : Provider}
    (hq : q ∈ ahead) : env.Ignores a b (Environment.given q) := by
  obtain ⟨answers, hfound, -⟩ := singletonsAhead_ok hahead
  obtain ⟨hsingle, env', isAsync', hcatalog, hwithin⟩ :=
    Survey.singletonsAhead_within h.within hfound q hq
  have hq' : env'.Ignores a b (Environment.given q) :=
    ⟨hcatalog.trans h.catalog, hwithin.of_isAsync false⟩
  exact hq'.of_single rfl hsingle h.catalog

/-- A delegate and the singletons ahead of it are obtained in the same way. -/
theorem delegateValue_withCatalog {result : Ty} {params : List Parameter}
    (hnested : SameBodies a b nested nested')
    (hobtain : ∀ q, env.Ignores a b (Environment.given q) →
      obtain (c.withCatalog b) nested' scope budget false (env.withCatalog b) q =
        obtain c nested scope budget false env q)
    (hp : p = .delegate ty result params isAsync) (h : env.Ignores a b (Environment.given p)) :
    delegateValue (c.withCatalog b) nested' scope budget (env.withCatalog b) p ty result isAsync =
      delegateValue c nested scope budget env p ty result isAsync := by
  have hbody : ∀ scope, assembleBody nested' scope ((env.enter p).withCatalog b) result =
      assembleBody nested scope (env.enter p) result := fun scope =>
    assembleBody_withCatalog hnested h (.delegate hp)
  have hcreate : ∀ name needs,
      createDelegate nested' scope ((env.withCatalog b).enter p) p result isAsync name needs =
        createDelegate nested scope (env.enter p) p result isAsync name needs := by
    intro name needs
    rw [Environment.withCatalog_enter]
    unfold createDelegate
    simp only [hbody]
  -- What is found ahead is ignored by both catalogs as well, being below the delegate.
  have hafter : ∀ name ahead, (∀ q ∈ ahead, env.Ignores a b (Environment.given q)) →
      delegateAfter (c.withCatalog b) nested' scope budget (env.withCatalog b) p result isAsync name
          ahead =
        delegateAfter c nested scope budget env p result isAsync name ahead := by
    intro name ahead hahead
    unfold delegateAfter
    rw [Run.mapM_congr fun q hq => hobtain q (hahead q hq)]
    simp only [hcreate]
  unfold delegateValue
  refine bind_congr fun name => ?_
  by_cases hwaits : (scope.isAsync && !isAsync) = true
  · rw [if_pos hwaits, if_pos hwaits, singletonsAhead_withCatalog h]
    exact Run.bind_congr_of_ok fun s ahead t hahead =>
      hafter name ahead fun q hq => ignores_of_ahead h hahead hq
  · rw [if_neg hwaits, if_neg hwaits]
    exact hafter name [] (by simp)

/-- An owned value is obtained in the same way, given that its body is assembled so. -/
theorem ownedValue_withCatalog {value : Ty} (hnested : SameBodies a b nested nested')
    (hp : p = .owned ty value isAsync) (h : env.Ignores a b (Environment.given p)) :
    ownedValue nested' scope (env.withCatalog b) p ty value isAsync =
      ownedValue nested scope env p ty value isAsync := by
  have hbody : ∀ scope, assembleBody nested' scope ((env.enter p).withCatalog b) value =
      assembleBody nested scope (env.enter p) value := fun scope =>
    assembleBody_withCatalog hnested h (.owned hp)
  have hcreate : ∀ name,
      createOwned nested' scope ((env.withCatalog b).enter p) p value isAsync name =
        createOwned nested scope (env.enter p) p value isAsync name := by
    intro name
    rw [Environment.withCatalog_enter]
    unfold createOwned
    simp only [hbody]
  unfold ownedValue
  simp only [hcreate]
  rfl

/-- A value created from arguments is obtained in the same way. -/
theorem createdValue_withCatalog
    (hobtain : ∀ q, (env.enter p).Ignores a b (Environment.given q) →
      obtain (c.withCatalog b) nested' scope budget false ((env.enter p).withCatalog b) q =
        obtain c nested scope budget false (env.enter p) q)
    (h : env.Ignores a b (Environment.given p)) :
    createdValue (c.withCatalog b) nested' scope budget (env.withCatalog b) p =
      createdValue c nested scope budget env p := by
  unfold createdValue
  rw [Environment.withCatalog_enter, h.requests rfl]
  refine bind_congr fun name => congrArg₂ Bind.bind (Run.mapM_congr fun r hr => ?_) rfl
  cases hq : r.provider? with
  | none => rfl
  | some q =>
      simp only
      rw [hobtain q ((h.next rfl hr).given hq)]

/-- Over both catalogs a value is obtained in the same way, as nothing is looked up below it that the
two resolve differently. The induction is on the budget. -/
theorem obtain_withCatalog (hc : c.container.catalog = a) (hnested : SameBodies a b nested nested')
    (h : env.Ignores a b (Environment.given p)) :
    obtain (c.withCatalog b) nested' scope budget isTarget (env.withCatalog b) p =
      obtain c nested scope budget isTarget env p := by
  induction budget generalizing isTarget env p with
  | zero => rfl
  | succ budget ih =>
      unfold obtain
      refine bind_congr fun _ => bind_congr fun hand => ?_
      -- What is at hand is so in the plan, whatever the catalog.
      cases hand with
      | some supply => rfl
      | none =>
          by_cases huses : usesAccessor scope isTarget p = true
          · simp only [if_pos huses]
            exact askAccessor_withCatalog hc h (lifetime_of_usesAccessor huses)
          · simp only [if_neg huses]
            have hcreated : createdValue (c.withCatalog b) nested' scope budget (env.withCatalog b) p =
                createdValue c nested scope budget env p :=
              createdValue_withCatalog (fun _ hq => ih hq) h
            cases p with
            | parameter param name depth => rfl
            | delegate ty result params isAsync =>
                exact delegateValue_withCatalog hnested (fun q hq => ih hq) rfl h
            | owned ty value isAsync => exact ownedValue_withCatalog hnested rfl h
            | construct site rule => exact hcreated
            | factory site product maker lifetime isAsync => exact hcreated
            | call site rule => exact hcreated
            | held member => exact hcreated
            | array ty element items => exact hcreated
            | decorated site decorator inner => exact hcreated
            | forwarded ty inner => exact hcreated

/-- Over both catalogs a body is assembled in the same way. The induction is on the nesting. -/
theorem assemble_withCatalog (hc : c.container.catalog = a) {nesting : Nat} :
    SameBodies a b (assemble c nesting) (assemble (c.withCatalog b) nesting) := by
  induction nesting with
  | zero => exact fun _ _ _ _ _ => rfl
  | succ nesting ih =>
      intro scope env target known h
      unfold assemble
      rw [show (c.withCatalog b).maxDepth = c.maxDepth from rfl, obtain_withCatalog hc ih h]
      rfl

end Assembly

/-- Over both catalogs a plan comes out the same. -/
theorem planResolution_withCatalog {config : Config} {trigger : Trigger} {env : Environment}
    {isAsync : Bool} {target : Provider} (h : env.Ignores a b (Environment.given target)) :
    planResolution config trigger (env.withCatalog b) isAsync target =
      planResolution config trigger env isAsync target := by
  let c : Assembly.Settings := .ofConfig config trigger env
  have hassemble : Assembly.SameBodies a b (Assembly.assemble c (c.maxNesting + 1))
      (Assembly.assemble (c.withCatalog b) (c.maxNesting + 1)) :=
    Assembly.assemble_withCatalog h.catalog
  exact congrArg Assembly.answer (congrFun (hassemble _ env target [] h) .initial)

namespace Declarations

variable {ds : Declarations} {extra : List Provider} {root : Ty} {isAsync : Bool}

/-- What a root does not demand is ignored below it. -/
theorem ignores_extend
    (h : ∀ p ∈ extra, ∀ ty, (Place.atRoot ds.build root isAsync).Demands ty →
      ty ≠ p.ty ∧ ty ≠ .array p.ty) :
    ds.build.Ignores ds.build.catalog (ds.extend extra).build.catalog (ds.build.request root) := by
  have hwithin : (Place.atRoot ds.build root isAsync).Within
      (Provider.Ignores ds.build.catalog (ds.extend extra).build.catalog) :=
    fun y hy p hp ty hty => resolve_extend fun q hq => h q hq ty (.inr ⟨p, ⟨y, hy, hp⟩, hty⟩)
  exact ⟨rfl, hwithin.of_isAsync false⟩

/-- Further providers are not noticed by a root below which neither their types nor arrays of them are
looked up: its check, whether it touches raw memory, its provider and its plan stay the same. -/
theorem extend_unseen (ds : Declarations) (extra : List Provider) (root : Ty) (isAsync : Bool)
    (h : ∀ p ∈ extra, ∀ ty, (Place.atRoot ds.build root isAsync).Demands ty →
      ty ≠ p.ty ∧ ty ≠ .array p.ty) :
    (∀ c : Check.Settings, c.root = root →
      Check.run c (ds.extend extra).build isAsync = Check.run c ds.build isAsync) ∧
    (∀ trigger, Survey.touchesRawMemory trigger (ds.extend extra).build root =
      Survey.touchesRawMemory trigger ds.build root) ∧
    (ds.extend extra).build.lookup root = ds.build.lookup root ∧
    ∀ config trigger target, ds.build.lookup root = some target →
      planResolution config trigger (ds.extend extra).build isAsync target =
        planResolution config trigger ds.build isAsync target := by
  -- Both containers have no frames, so the second is the first over another catalog.
  obtain ⟨b, hb, hroot, hignores⟩ : ∃ b, (ds.extend extra).build = ds.build.withCatalog b ∧
      b.resolve root = ds.build.catalog.resolve root ∧
      ds.build.Ignores ds.build.catalog b (ds.build.request root) :=
    ⟨_, build_extend ds extra, resolve_extend fun p hp => h p hp root (.inl rfl), ignores_extend h⟩
  rw [hb]
  have hcontainer : ds.build.root = ds.build := rfl
  generalize ds.build = env at *
  have hlookup : (env.withCatalog b).lookup root = env.lookup root :=
    Environment.withCatalog_lookup hroot
  have hrequest : (env.withCatalog b).request root = env.request root := by
    rw [Environment.request, Environment.request, hlookup]
  refine ⟨?_, fun trigger => ?_, hlookup, fun config trigger target htarget => ?_⟩
  · rintro c rfl
    have hvisit : Check.visit c (c.maxDepth + 1) (.withCatalog b ⟨env, isAsync, [], []⟩)
          (env.request c.root) =
        Check.visit c (c.maxDepth + 1) ⟨env, isAsync, [], []⟩ (env.request c.root) :=
      Check.visit_withCatalog hignores fun _ => hroot
    have hcontext : Check.Context.atRoot (env.withCatalog b) isAsync =
        Check.Context.withCatalog b ⟨env, isAsync, [], []⟩ := by
      -- The check starts in the container, which is its own root.
      rw [Check.Context.atRoot, Environment.withCatalog_root, hcontainer]
      rfl
    unfold Check.run
    rw [hcontext, Check.Context.atRoot, hcontainer]
    simp only [Check.Context.withCatalog] at hvisit ⊢
    rw [hrequest, hvisit]
  · unfold Survey.touchesRawMemory
    rw [Environment.withCatalog_root, hcontainer, hrequest]
    exact Survey.run_withCatalog (.refl _) hignores false
  · exact planResolution_withCatalog (hignores.given htarget)

/-- A second provider of a type that the root does not need, itself without a dependency. -/
theorem extend_unseen_ambiguous :
    let a : Ty := .plain "A"
    let b : Ty := .plain "B"
    let r : Ty := .plain "R"
    let needs (tys : List Ty) : List Parameter := tys.map fun ty => ⟨"", 0, ty, false⟩
    let ds := (({} : Declarations).addConstructor (.new a []) .single {})
      |>.addConstructor (.new b []) .resolution {}
      |>.addConstructor (.new r (needs [a, .delegate [] a false])) .resolution {}
    let extra : List Provider := [.construct none
      ⟨b, .single, .new b (needs [.plain "Missing"]), false, false, .none⟩]
    ((ds.build.lookup b).isSome = true ∧ (ds.extend extra).build.lookup b = none) ∧
    (∀ c : Check.Settings, c.root = r →
      Check.run c (ds.extend extra).build true = Check.run c ds.build true) ∧
    (∀ trigger, Survey.touchesRawMemory trigger (ds.extend extra).build r =
      Survey.touchesRawMemory trigger ds.build r) ∧
    (ds.extend extra).build.lookup r = ds.build.lookup r ∧
    ∀ config trigger target, ds.build.lookup r = some target →
      planResolution config trigger (ds.extend extra).build true target =
        planResolution config trigger ds.build true target := by
  intro a b r needs ds extra
  refine ⟨⟨by cbv, by cbv⟩, extend_unseen ds extra r true fun p hp ty hty => ?_⟩
  have hends : (Place.atRoot ds.build r true).endsWithin 4 = true := by cbv
  have hlisted : ∀ ty ∈ (Place.atRoot ds.build r true).demanded 4, ty ≠ b ∧ ty ≠ .array b := by
    decide +kernel
  obtain rfl := List.mem_singleton.mp hp
  exact hlisted ty ((Place.mem_demanded hends).mpr hty)

end Declarations

end Wiring
