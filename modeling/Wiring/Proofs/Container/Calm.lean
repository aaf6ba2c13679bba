import Mathlib
import Wiring.Declarations
import Wiring.Proofs.Assembly.Calm
import Wiring.Proofs.Check.Exactness
import Wiring.Proofs.Container.Asking

/-!
# Nothing waits where nothing can

In the plan of a container nothing suspends in the plan of a synchronous root, in the plan of an
accessor that does not suspend, or in the body of a synchronous delegate or owned value. The check
has vouched for the roots, and the roots for the singletons.

* `ContainerPlan.Meets` — the providers in the unfoldings of the requested roots.
* `ContainerPlan.calm` — every plan of the container is calm.
* `ContainerPlan.quiet` — what that says of waiting.
-/

namespace Wiring

/-- Below a singleton there is nothing but what is below the place where it is met. -/
theorem Place.within_of_single {catalog : Catalog} {among : Provider → Prop} {x : Place}
    {p : Provider} (h : x.Within among) (hp : x.request.provider? = some p)
    (hsingle : p.lifetime = .single) (hcatalog : x.env.catalog = catalog) (isAsync : Bool) :
    (ofProvider catalog isAsync p).Within among := by
  have hsame : (ofProvider catalog x.isAsync p).Within among := by
    intro y hy q hq
    rcases leadsThrough_of_single hp hsingle hcatalog (leadsThrough_true hy) with rfl | hy
    · cases hq
      exact h.provider hp
    · exact h y hy.leads q hq
  exact hsame.of_isAsync isAsync

namespace ContainerPlan

variable {c : Settings} {requests : List RootRequest} {plan : ContainerPlan}

/-- A provider is found in the unfolding of a requested root. -/
def Meets (c : Settings) (requests : List RootRequest) (p : Provider) : Prop :=
  ∃ request ∈ requests, (Place.atRoot c.env request.ty request.isAsync).Meets p

theorem within_meets {request : RootRequest} (h : request ∈ requests) :
    (Place.atRoot c.env request.ty request.isAsync).Within (Meets c requests) :=
  fun y hy _ hp => ⟨request, h, y, hy, hp⟩

/-- In a consistent catalog the providers met are alike where they have one identity. -/
theorem coherent_meets (h : c.env.catalog.Consistent) (requests : List RootRequest) :
    Coherent (Meets c requests) := by
  refine h.coherent.mono ?_
  rintro p ⟨request, -, x, hx, hp⟩
  exact Place.within_yields c.env request.ty request.isAsync x hx p hp

theorem hosts (hcoherent : Coherent (Meets c requests)) : c.env.catalog.Hosts (Meets c requests) := by
  refine ⟨hcoherent, ?_⟩
  rintro p ⟨request, hrequest, y, hy, hp⟩ hsingle
  exact Place.within_of_single ((within_meets hrequest).leads hy) hp hsingle
    (Place.catalog_of_leads hy) false

/-- The check of a root. -/
def checked (c : Settings) (request : RootRequest) : Check.Outcome :=
  Check.run ⟨request.ty, c.config.maxDepth, c.trigger, c.location⟩ c.env request.isAsync

/-- How a root with a plan was planned: its check reported nothing, its survey of raw memory ended, and
its plan is that of the provider found for it. -/
theorem planRoot_planned {request : RootRequest} {root : RootPlan} {raw : Bool} {body : Plan}
    (h : planRoot c request = .ok (root, raw)) (hbody : root.plan? = some body) :
    root.request = request ∧ (checked c request).error? = none ∧
      (checked c request).diagnostics = [] ∧
      Survey.touchesRawMemory c.trigger c.env request.ty = .ok raw ∧
      ∃ target, c.env.root.lookup request.ty = some target ∧
        planResolution c.config c.trigger c.env.root request.isAsync target = .ok body := by
  unfold planRoot at h
  rw [show Check.run _ c.env request.isAsync = checked c request from rfl] at h
  -- A root is planned only if its check ended without an error and reported nothing.
  cases herror : (checked c request).error? with
  | some e =>
      simp only [herror] at h
      cases h
  | none =>
      simp only [herror] at h
      by_cases hclean : (checked c request).diagnostics = []
      · rw [if_pos (List.isEmpty_iff.mpr hclean)] at h
        cases hlookup : c.env.root.lookup request.ty with
        | none =>
            rw [hlookup] at h
            cases h
        | some target =>
            rw [hlookup] at h
            obtain ⟨raw', hraw, h₁⟩ := Run.except_bind_ok.mp h
            obtain ⟨plan, hplan, h₂⟩ := Run.except_bind_ok.mp h₁
            cases h₂
            cases hbody
            exact ⟨rfl, rfl, hclean, hraw, target, rfl, hplan⟩
      · rw [if_neg (by rwa [List.isEmpty_iff])] at h
        cases h
        cases hbody

/-- A root with a plan has passed its check. -/
theorem planRoot_ok {request : RootRequest} {root : RootPlan} {raw : Bool} {body : Plan}
    (h : planRoot c request = .ok (root, raw)) (hbody : root.plan? = some body) :
    root.request = request ∧ (checked c request).error? = none ∧
      (checked c request).diagnostics = [] ∧
      ∃ target, c.env.root.lookup request.ty = some target ∧
        planResolution c.config c.trigger c.env.root request.isAsync target = .ok body :=
  let ⟨hsame, herror, hclean, _, hplanned⟩ := planRoot_planned h hbody
  ⟨hsame, herror, hclean, hplanned⟩

/-- A root that passed its check is vouched for. -/
theorem vouched_root (hcoherent : Coherent (Meets c requests)) {request : RootRequest}
    (hrequest : request ∈ requests) (herror : (checked c request).error? = none)
    (hclean : (checked c request).diagnostics = []) :
    Vouched c.env.catalog (Meets c requests) (Place.atRoot c.env request.ty request.isAsync) :=
  ⟨⟨rfl, within_meets hrequest⟩, Check.sound_of_run hcoherent (within_meets hrequest) herror hclean⟩

/-- The plan of a root is calm, since the check has vouched for everything below it. -/
theorem root_calm (hcoherent : Coherent (Meets c requests)) {request : RootRequest}
    (hrequest : request ∈ requests) {root : RootPlan} {raw : Bool} {body : Plan}
    (h : planRoot c request = .ok (root, raw)) (hbody : root.plan? = some body) :
    body.Calm (VouchedSingleton c.env.catalog (Meets c requests)) root.request.isAsync := by
  obtain ⟨hsame, herror, hclean, target, hlookup, hplan⟩ := planRoot_ok h hbody
  rw [hsame]
  have htarget : Vouched c.env.catalog (Meets c requests)
      ⟨c.env.root, request.isAsync, Environment.given target⟩ :=
    (vouched_root hcoherent hrequest herror hclean).given hlookup
  have hhosts : c.env.root.catalog.Hosts (Meets c requests) := hosts hcoherent
  have hcatalog : c.env.catalog = c.env.root.catalog := rfl
  -- `planResolution` starts at the container; as a variable it is not unfolded in the statement.
  generalize c.env.root = container at *
  rw [hcatalog] at htarget ⊢
  exact planResolution_calm hhosts htarget hplan

/-- A singleton that is vouched for is vouched for where its accessor is planned. -/
theorem vouched_target {among : Provider → Prop} {p : Provider} {answer : Bool}
    (hhosts : c.env.catalog.Hosts among) (h : VouchedSingleton c.env.catalog among p answer) :
    Vouched c.env.catalog among ⟨c.env.root, answer, Environment.given p⟩ :=
  ⟨⟨rfl, (hhosts.single p h.met h.single).of_isAsync _⟩, h.sound⟩

/-- The singletons met so far are vouched for, and what is known of which of them suspend is right. -/
structure Trusted (c : Settings) (among : Provider → Prop) (met : List Provider)
    (answers : Survey.Answers) : Prop where
  met : ∀ p ∈ met, ∃ answer, VouchedSingleton c.env.catalog among p answer
  answers : answers.Right c.env.catalog among

/-- Whether a singleton met suspends is answered rightly. -/
theorem Trusted.suspendsWith {among : Provider → Prop} {met : List Provider}
    {answers answers' : Survey.Answers} {p : Provider} {answer : Bool}
    (h : Trusted c among met answers) (hhosts : c.env.catalog.Hosts among) (hp : p ∈ met)
    (hanswer : Survey.suspendsWith c.config.maxDepth c.trigger c.env p answers =
      .ok (answer, answers')) :
    VouchedSingleton c.env.catalog among p answer ∧ answers'.Right c.env.catalog among := by
  obtain ⟨known, hp⟩ := h.met p hp
  obtain ⟨hexact, hright⟩ := Survey.suspendsWith_exact hhosts hp.met hp.single h.answers hanswer
  have hsame : known = answer := Bool.eq_iff_iff.mpr (hp.suspends.trans hexact.symm)
  exact ⟨hsame ▸ hp, hright⟩

/-- The plan of one accessor is calm, and the singletons that it brings in are vouched for. -/
theorem planAccessorAt_calm {among : Provider → Prop} {asyncRelease : Bool} {index : Nat}
    {met met' : List Provider} {answers answers' : Survey.Answers} {p : Provider}
    {accessor : Accessor} (hhosts : c.env.catalog.Hosts among) (hmet : Trusted c among met answers)
    (hp : p ∈ met)
    (h : planAccessorAt c asyncRelease met answers index p = .ok (accessor, met', answers')) :
    VouchedSingleton c.env.catalog among accessor.provider accessor.isAsync ∧
      accessor.plan.Calm (VouchedSingleton c.env.catalog among) accessor.isAsync ∧
      Trusted c among met' answers' := by
  obtain ⟨hsuspends, hplan, hmet', hprovider, -⟩ := planAccessorAt_ok h
  obtain ⟨hvouched, hright⟩ := hmet.suspendsWith hhosts hp hsuspends
  have hroot : c.env.root.catalog.Hosts among := hhosts
  have hcalm := planAccessor_calm hroot (vouched_target hhosts hvouched) hplan
  refine ⟨hprovider ▸ hvouched, hcalm, fun q hq => ?_, hright⟩
  rw [hmet'] at hq
  rcases mem_of_mem_foldl_addNew hq with hq | hq
  · exact hmet.met q hq
  · obtain ⟨step, hstep, name, answer, heq⟩ := Plan.askedIn_of_mem_singletons hq
    exact ⟨answer, hcalm.asks_tree hstep heq⟩

/-- The plans of accessors are calm, if the singletons met before are vouched for. -/
theorem PlansAccessors.calm {among : Provider → Prop} {asyncRelease : Bool} {index : Nat}
    {met : List Provider} {answers : Survey.Answers} {accessors : List Accessor}
    (hhosts : c.env.catalog.Hosts among)
    (h : PlansAccessors c asyncRelease index met answers accessors)
    (hmet : Trusted c among met answers) :
    ∀ accessor ∈ accessors,
      VouchedSingleton c.env.catalog among accessor.provider accessor.isAsync ∧
        accessor.plan.Calm (VouchedSingleton c.env.catalog among) accessor.isAsync := by
  induction h with
  | done _ => exact fun _ hmem => by cases hmem
  | next hsome hplanned _ ih =>
      obtain ⟨hvouched, hcalm, hmet'⟩ :=
        planAccessorAt_calm hhosts hmet (List.mem_of_getElem? hsome) hplanned
      exact List.forall_mem_cons.mpr ⟨⟨hvouched, hcalm⟩, ih hmet'⟩

/-- The singletons that the planned roots ask for are vouched for. -/
theorem trusted_roots (hcoherent : Coherent (Meets c requests)) {planned : List (RootPlan × Bool)}
    (hplanned : requests.mapM (planRoot c) = .ok planned) :
    (∀ root ∈ planned.map (·.1), ∀ body, root.plan? = some body →
        body.Calm (VouchedSingleton c.env.catalog (Meets c requests)) root.request.isAsync) ∧
      Trusted c (Meets c requests)
        ((((planned.map (·.1)).filterMap RootPlan.plan?).flatMap Plan.singletons).foldl addNew [])
        [] := by
  have hroots : ∀ root ∈ planned.map (·.1), ∀ body, root.plan? = some body →
      body.Calm (VouchedSingleton c.env.catalog (Meets c requests)) root.request.isAsync := by
    intro root hmem body hbody
    obtain ⟨⟨root', raw⟩, hentry, rfl⟩ := List.mem_map.mp hmem
    obtain ⟨request, hrequest, hrun⟩ := Run.except_mapM_ok hplanned _ hentry
    exact root_calm hcoherent hrequest hrun hbody
  refine ⟨hroots, fun p hp => ?_, .nil _ _⟩
  obtain ⟨body, hbody, hp⟩ :=
    List.mem_flatMap.mp ((mem_of_mem_foldl_addNew hp).resolve_left List.not_mem_nil)
  obtain ⟨root, hmem, hplan⟩ := List.mem_filterMap.mp hbody
  obtain ⟨step, hstep, name, answer, heq⟩ := Plan.askedIn_of_mem_singletons hp
  exact ⟨answer, (hroots root hmem body hplan).asks_tree hstep heq⟩

/-- The plans of a container: those of its roots that have no faults, and those of its accessors. -/
def plans (plan : ContainerPlan) : List Plan :=
  plan.roots.filterMap RootPlan.plan? ++ plan.singletons.map Accessor.plan

/-- Every plan of a container is calm, where waiting is possible or not as its root or accessor says. -/
theorem calm (hcoherent : Coherent (Meets c requests)) (h : run c requests = .ok plan) :
    (∀ root ∈ plan.roots, ∀ body, root.plan? = some body →
        body.Calm (VouchedSingleton c.env.catalog (Meets c requests)) root.request.isAsync) ∧
      ∀ accessor ∈ plan.singletons,
        VouchedSingleton c.env.catalog (Meets c requests) accessor.provider accessor.isAsync ∧
          accessor.plan.Calm (VouchedSingleton c.env.catalog (Meets c requests)) accessor.isAsync := by
  obtain ⟨planned, hplanned, hroots, haccessors, -, -⟩ := run_ok h
  obtain ⟨hcalm, htrusted⟩ := trusted_roots hcoherent hplanned
  rw [hroots] at haccessors ⊢
  exact ⟨hcalm, haccessors.calm (hosts hcoherent) htrusted⟩

/-- In the plan of a container whose providers of one identity are alike, nothing suspends in the
plan of a synchronous root, in the plan of an accessor that does not suspend, or in the body of a
synchronous delegate or owned value anywhere in a plan. -/
theorem quiet (c : Settings) (requests : List RootRequest) (plan : ContainerPlan)
    (h : run c requests = .ok plan) (hcoherent : Coherent (Meets c requests)) :
    (∀ root ∈ plan.roots, ∀ body, root.plan? = some body → root.request.isAsync = false →
        body.IsQuiet) ∧
      (∀ accessor ∈ plan.singletons, accessor.isAsync = false → accessor.plan.IsQuiet) ∧
      ∀ outer ∈ plan.plans, ∀ around nested, outer.Within around nested →
        ∀ carrier ∈ nested.steps, ∀ body, carrier.statement.body? = some body →
          carrier.statement.isBodyAsync = false → body.IsQuiet := by
  obtain ⟨hroots, haccessors⟩ := calm hcoherent h
  refine ⟨fun root hroot body hbody hsync => ?_, fun accessor haccessor hsync => ?_, ?_⟩
  · exact (hsync ▸ hroots root hroot body hbody).isQuiet
  · exact (hsync ▸ (haccessors accessor haccessor).2).isQuiet
  · intro outer houter around nested hwithin carrier hcarrier body hbody hsync
    rcases List.mem_append.mp houter with houter | houter
    · obtain ⟨root, hroot, hplan⟩ := List.mem_filterMap.mp houter
      exact (hroots root hroot outer hplan).body_isQuiet hwithin hcarrier hbody hsync
    · obtain ⟨accessor, haccessor, rfl⟩ := List.mem_map.mp houter
      exact (haccessors accessor haccessor).2.body_isQuiet hwithin hcarrier hbody hsync

/-- A synchronous root with a delegate whose body waits for a singleton. -/
theorem quiet_waiting_delegate :
    let a : Ty := .plain "A"
    let b : Ty := .plain "B"
    let r : Ty := .plain "R"
    let needs (tys : List Ty) : List Parameter := tys.map fun ty => ⟨"", 0, ty, false⟩
    let env := ((({} : Declarations).addConstructor (.new a []) .single { isAsync := true })
      |>.addConstructor (.new b (needs [a])) .resolution {}
      |>.addConstructor (.new r (needs [.delegate [] b true])) .resolution {}).build
    ∃ plan, run ⟨env, {}, .never, none⟩ [⟨r, false⟩] = .ok plan ∧ plan.stubs = [] ∧
      plan.singletons.map Accessor.isAsync = [true] ∧
      (∀ root ∈ plan.roots, ∀ body, root.plan? = some body → root.request.isAsync = false →
        body.IsQuiet) ∧
      (∀ accessor ∈ plan.singletons, accessor.isAsync = false → accessor.plan.IsQuiet) ∧
      ∀ outer ∈ plan.plans, ∀ around nested, outer.Within around nested →
        ∀ carrier ∈ nested.steps, ∀ body, carrier.statement.body? = some body →
          carrier.statement.isBodyAsync = false → body.IsQuiet := by
  intro a b r needs env
  have hsummary : (run ⟨env, {}, .never, none⟩ [⟨r, false⟩]).toOption.map (fun plan =>
      (plan.stubs.length, plan.singletons.map Accessor.isAsync)) = some (0, [true]) := by cbv
  obtain ⟨plan, hplan, hsummary⟩ := Option.map_eq_some_iff.mp hsummary
  have hok := Run.ok_of_toOption hplan
  obtain ⟨hstubs, hsingletons⟩ := Prod.mk.inj hsummary
  have hconsistent : env.catalog.Consistent := .of_flat (by cbv) (by decide +kernel) rfl
  exact ⟨plan, hok, List.length_eq_zero_iff.mp hstubs, hsingletons,
    quiet _ _ plan hok (coherent_meets hconsistent _)⟩

/-- Two providers of one identity that are not alike: the check passes over the second, which waits,
and the plan of the synchronous root waits with it. -/
theorem not_quiet :
    let f : Ty := .plain "F"
    let w : Ty := .plain "W"
    let r : Ty := .plain "R"
    let ia : Ty := .plain "IA"
    let ib : Ty := .plain "IB"
    let needs (tys : List Ty) : List Parameter := tys.map fun ty => ⟨"", 0, ty, false⟩
    let env := ((({} : Declarations).addConstructor (.new f []) .dependency { exposedAs := [ia] })
      |>.addConstructor (.new f (needs [w])) .dependency { exposedAs := [ib] }
      |>.addConstructor (.new w []) .dependency { isAsync := true }
      |>.addConstructor (.new r (needs [ia, ib])) .resolution {}).build
    ∃ plan, run ⟨env, {}, .never, none⟩ [⟨r, false⟩] = .ok plan ∧
      ∃ root ∈ plan.roots, ∃ body, root.plan? = some body ∧ root.request.isAsync = false ∧
        ¬ body.IsQuiet := by
  intro f w r ia ib needs env
  have hsummary : (run ⟨env, {}, .never, none⟩ [⟨r, false⟩]).toOption.map (fun plan =>
      plan.roots.map fun root => (root.request.isAsync, root.plan?.map fun body =>
        body.steps.all fun step => step.statement.isQuiet)) = some [(false, some false)] := by cbv
  obtain ⟨plan, hplan, hsummary⟩ := Option.map_eq_some_iff.mp hsummary
  obtain ⟨root, rest, hroots, hroot, -⟩ := List.map_eq_cons_iff.mp hsummary
  obtain ⟨hsync, hbody⟩ := Prod.mk.inj hroot
  obtain ⟨body, hbody, hloud⟩ := Option.map_eq_some_iff.mp hbody
  refine ⟨plan, Run.ok_of_toOption hplan, root, hroots ▸ List.mem_cons_self, body, hbody, hsync, ?_⟩
  exact fun hquiet => absurd (List.all_eq_true.mpr hquiet) (by simp [hloud])

end ContainerPlan

end Wiring
