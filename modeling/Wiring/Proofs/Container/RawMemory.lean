import Mathlib
import Wiring.Declarations
import Wiring.Proofs.Container.Reach
import Wiring.Proofs.Survey.Walk
import Wiring.Proofs.Typing

/-!
# Containers that touch no raw memory

Whether a container touches raw memory is found out root by root, by surveys; its plans are assembled
on their own, singletons apart. Yet a plan goes where the survey of some root has been: neither enters
a delegate from within its own body, and a singleton is met in the same way wherever it is met.

* `Reach.walked` — what is met on the way from given requests.
* `Survey.cleared_of_touchesRawMemory` — a root that touches no raw memory meets none on the way.
* `ContainerPlan.untouched` — the plans of a container that touches no raw memory have none in them.
-/

namespace Wiring

/-! ### What is met on the way -/

/-- The providers with the identity of something on the way from one of the given requests. -/
def Reach.walked (among : Provider → Prop) (start : Environment) (firsts : Request → Prop) : Reach :=
  fun env delegates p => env.catalog = start.catalog ∧
    (∃ isAsync, (Place.mk env isAsync (Environment.given p)).Within among) ∧
    ∃ first r q, firsts first ∧ Survey.Context.Walks start first ⟨env, delegates⟩ r ∧
      r.provider? = some q ∧ q.identity = p.identity

namespace Reach

variable {among : Provider → Prop} {start env : Environment} {firsts : Request → Prop}
  {delegates : List Provider.Identity} {p : Provider}

theorem walked_start {r : Request} {isAsync : Bool} (hr : firsts r)
    (hwithin : (Place.mk start isAsync r).Within among) (hp : r.provider? = some p) :
    walked among start firsts start [] p :=
  ⟨rfl, ⟨isAsync, hwithin.given hp⟩, r, r, p, hr, .start, hp, rfl⟩

/-- The way goes on to dependencies, and it meets every singleton below. What the plans reach lies on it
therefore, up to identity. -/
theorem isClosed_walked (hhosts : start.catalog.Hosts among)
    (hfirsts : ∀ r, firsts r → (Place.mk start false r).Within among) :
    (walked among start firsts).IsClosed := by
  have hcoherent := hhosts.coherent
  constructor
  · rintro env delegates p r p₁ ⟨hcatalog, ⟨isAsync, hwithin⟩, first, r₀, q, hfirst, way, hq, hidentity⟩
      hinside hr hp₁
    have hstart : (Place.mk start false first).Belongs start.catalog among :=
      ⟨rfl, hfirsts first hfirst⟩
    obtain ⟨isAsync', hbelongs⟩ := way.belongs hstart
    have halike : p.Alike q := hcoherent p q (hwithin.provider rfl) (hbelongs.within.provider hq)
      hidentity.symm
    -- The way leads to a provider of the same identity, which requests alike: to one with the identity
    -- of what is requested here.
    obtain ⟨r', hr', hkey⟩ := halike.request hr
    obtain ⟨-, hidentities⟩ := Prod.ext_iff.mp hkey
    rw [Request.key, Request.key, hp₁] at hidentities
    obtain ⟨q₁, hq₁, hidentity₁⟩ := Option.map_eq_some_iff.mp hidentities
    have hout : (Survey.Context.mk env delegates).isInside q = false := by
      rw [Survey.Context.isInside_congr hidentity, Survey.Context.isInside]
      simpa [List.contains_iff_mem] using hinside
    have hsame : (Survey.Context.mk env delegates).enter p = (Survey.Context.mk env delegates).enter q :=
      Survey.Context.enter_congr halike
    have hr₁ : r' ∈ ((Survey.Context.mk env delegates).enter q).env.requests q := hsame ▸ hr'
    have hnext := way.next hq hout hr₁
    rw [← hsame] at hnext
    exact ⟨(env.catalog_enter p).trans hcatalog, ⟨_, (hwithin.next (.intro rfl hr)).given hp₁⟩,
      first, r', q₁, hfirst, hnext, hq₁, hidentity₁⟩
  · rintro env delegates p ⟨hcatalog, ⟨isAsync', hwithin⟩, first, r₀, q, hfirst, way, hq, hidentity⟩
      isAsync x hx s hs hsingle
    have hstart : (Place.mk start false first).Belongs start.catalog among :=
      ⟨rfl, hfirsts first hfirst⟩
    have hbelow : (Place.mk env isAsync (Environment.given p)).Within among :=
      hwithin.of_isAsync isAsync
    -- A singleton is entered at the container, where the way to one of its identity ends too.
    obtain ⟨ctx, r, q', way', hq', hidentity'⟩ :=
      way.exists_of_same hcoherent hstart hq hidentity hbelow hx hs hsingle
    obtain ⟨_, hbelongs⟩ := way'.belongs hstart
    have hhost := hhosts.single s ((hbelow.leads hx).provider hs) hsingle
    exact ⟨ctx.env, ctx.delegates, hbelongs.catalog.trans hcatalog.symm, hbelongs.catalog,
      ⟨false, hhost.of_env hsingle hbelongs.catalog⟩, first, r, q', hfirst, way', hq', hidentity'⟩

end Reach

/-! ### What the survey has cleared -/

namespace Survey

/-- The survey of raw memory goes on until it finds some, so everything it has judged before that was
clear. -/
theorem rawMemory_clears (trigger : Trigger) :
    Clears (rawMemory trigger) (fun p => p.ty.isRaw = false) (fun found => found = false) := by
  have hjudge : ∀ p found goOn after, (rawMemory trigger).judge p found = .ok (goOn, after) →
      after = false → p.ty.isRaw = false ∧ goOn = true ∧ found = false := by
    intro p found goOn after hjudge hclean
    simp only [rawMemory, Except.ok.injEq] at hjudge
    cases hraw : p.ty.isRaw with
    | true =>
        rw [hraw, if_pos rfl] at hjudge
        cases hjudge
        cases hclean
    | false =>
        rw [hraw, if_neg Bool.false_ne_true] at hjudge
        cases hjudge
        exact ⟨rfl, rfl, hclean⟩
  refine ⟨⟨rfl, fun _ => trivial, fun found hsettled hclean => ?_, fun p found goOn after h hclean =>
    (hjudge p found goOn after h hclean).2.2, fun _ _ _ _ _ _ _ => trivial,
    fun p found after h hclean => ?_⟩, fun p found goOn after h hclean =>
    (hjudge p found goOn after h hclean).1⟩
  · rw [hclean] at hsettled
    cases hsettled
  · cases (hjudge p found false after h hclean).2.1

/-- A root that touches no raw memory meets none on the way. -/
theorem cleared_of_touchesRawMemory {trigger : Trigger} {env : Environment} {ty : Ty}
    {among : Provider → Prop} (h : touchesRawMemory trigger env ty = .ok false)
    (hcoherent : Coherent among)
    (htypes : ∀ p q, among p → among q → p.identity = q.identity → p.ty = q.ty)
    (hwithin : (Place.atRoot env ty false).Within among) {ctx : Context} {r : Request}
    (way : Context.Walks env.root (env.root.request ty) ctx r) {p : Provider}
    (hp : r.provider? = some p) : p.ty.isRaw = false := by
  refine way.cleared hcoherent (rawMemory_clears trigger) (fun p q hp hq hidentity hq' => ?_)
    hwithin h rfl hp
  rwa [htypes p q hp hq hidentity]

end Survey

/-! ### The plans of a container -/

/-- No statement is about raw memory, and no argument of a creation stands for any, the parameters of
delegates included. -/
structure Plan.IsUntouched (base : Environment) (plan : Plan) : Prop where
  providers : ∀ step ∈ plan.steps, ∀ p, step.statement.provider? = some p → p.ty.isRaw = false
  arguments : ∀ step ∈ plan.steps, ∀ name p args, step.statement = .create name p args →
    ∀ r ∈ (base.enter p).requests p, ∀ q, r.provider? = some q → q.ty.isRaw = false

theorem Plan.IsAbout.isUntouched {base : Environment} {plan : Plan}
    (h : plan.IsAbout (fun p => p.ty.isRaw = false) base) : plan.IsUntouched base :=
  ⟨fun _ hstep => (h.step hstep).provider, fun _ hstep => (h.step hstep).arguments⟩

namespace ContainerPlan

variable {c : Settings} {requests : List RootRequest} {plan : ContainerPlan}

/-- In a regular catalog the providers met have one type where they have one identity. -/
theorem types_agree (h : c.env.catalog.IsRegular) (requests : List RootRequest) :
    ∀ p q, Meets c requests p → Meets c requests q → p.identity = q.identity → p.ty = q.ty := by
  have hregular : ∀ p, Meets c requests p → p.IsRegular := by
    rintro p ⟨request, -, x, hx, hp⟩
    exact Place.within_regular h request.ty request.isAsync x hx p hp
  exact fun p q hp hq => (hregular p hp).ty_eq (hregular q hq)

/-- Where a container touches no raw memory, the survey of each planned root found none. -/
theorem root_untouched (h : run c requests = .ok plan) (hraw : plan.touchesRawMemory = false)
    {root : RootPlan} (hroot : root ∈ plan.roots) {body : Plan} (hbody : root.plan? = some body) :
    Survey.touchesRawMemory c.trigger c.env root.request.ty = .ok false := by
  unfold run at h
  obtain ⟨planned, hplanned, h₁⟩ := Run.except_bind_ok.mp h
  obtain ⟨singletons, -, h₂⟩ := Run.except_bind_ok.mp h₁
  cases h₂
  obtain ⟨⟨root', raw⟩, hentry, rfl⟩ := List.mem_map.mp hroot
  obtain ⟨request, -, hrun⟩ := Run.except_mapM_ok hplanned _ hentry
  have hfalse : raw = false := by
    simpa using List.any_eq_false.mp hraw _ hentry
  obtain ⟨hsame, -, -, hsurvey, -⟩ := planRoot_planned hrun hbody
  rw [hsame, ← hfalse]
  exact hsurvey

/-- If no planned root touches raw memory, no plan of the container does: in no plan and no body is
there a value that is raw memory, or a parameter of a delegate that is and is passed on. -/
theorem untouched (c : Settings) (requests : List RootRequest) (plan : ContainerPlan)
    (h : run c requests = .ok plan) (hraw : plan.touchesRawMemory = false)
    (hcoherent : Coherent (Meets c requests))
    (htypes : ∀ p q, Meets c requests p → Meets c requests q → p.identity = q.identity → p.ty = q.ty) :
    ∀ outer ∈ plan.plans, ∀ around nested, outer.Within around nested →
      nested.IsUntouched (c.env.root.within around) := by
  have hwithin : ∀ root ∈ plan.roots, ∀ body, root.plan? = some body →
      (Place.atRoot c.env root.request.ty false).Within (Meets c requests) :=
    fun root hroot body hbody => (within_meets (root_planned h hroot hbody).1).of_isAsync false
  let firsts : Request → Prop := fun r => ∃ root ∈ plan.roots, ∃ body, root.plan? = some body ∧
    r = c.env.root.request root.request.ty
  have hfirsts : ∀ r, firsts r → (Place.mk c.env.root false r).Within (Meets c requests) := by
    rintro r ⟨root, hroot, body, hbody, rfl⟩
    exact hwithin root hroot body hbody
  have hhosts : c.env.root.catalog.Hosts (Meets c requests) := hosts hcoherent
  obtain ⟨hroots, haccessors⟩ := isAbout (Reach.isClosed_walked hhosts hfirsts) h
    fun root hroot body hbody target hlookup =>
      Reach.walked_start ⟨root, hroot, body, hbody, rfl⟩ (hwithin root hroot body hbody) hlookup
  -- Whatever the plans are about has the identity of something on a way from a planned root, and the
  -- survey of that root has cleared it. Of one identity the types are the same.
  have hclear : ∀ p, (Reach.walked (Meets c requests) c.env.root firsts).Finds c.env.catalog p →
      p.ty.isRaw = false := by
    rintro p ⟨env, delegates, -, -, ⟨isAsync, hp⟩, first, r, q, ⟨root, hroot, body, hbody, rfl⟩, way,
      hq, hidentity⟩
    have hroot' := hwithin root hroot body hbody
    have hclean := Survey.cleared_of_touchesRawMemory (root_untouched h hraw hroot hbody) hcoherent
      htypes hroot' way hq
    have hfirst : (Place.mk c.env.root false (c.env.root.request root.request.ty)).Belongs
        c.env.catalog (Meets c requests) := ⟨rfl, hroot'⟩
    obtain ⟨_, hbelongs⟩ := way.belongs hfirst
    rwa [← htypes q p (hbelongs.within.provider hq) (hp.provider rfl) hidentity]
  intro outer houter around nested hnested
  have habout : outer.IsAbout (fun p => p.ty.isRaw = false) c.env.root := by
    rcases List.mem_append.mp houter with houter | houter
    · obtain ⟨root, hroot, hplan⟩ := List.mem_filterMap.mp houter
      exact (hroots root hroot outer hplan).mono hclear
    · obtain ⟨accessor, hmem, rfl⟩ := List.mem_map.mp houter
      exact (haccessors accessor hmem).mono hclear
  exact (habout.within hnested).isUntouched

/-- A singleton, and a delegate whose body passes its parameter on. -/
theorem untouched_parameter :
    let a : Ty := .plain "A"
    let b : Ty := .plain "B"
    let r : Ty := .plain "R"
    let z : Ty := .plain "Z"
    let needs (tys : List Ty) : List Parameter := tys.map fun ty => ⟨"", 0, ty, false⟩
    let env := ((({} : Declarations).addConstructor (.new a []) .single {})
      |>.addConstructor (.new b (needs [z, a])) .resolution {}
      |>.addConstructor (.new r (needs [a, .delegate [z] b false])) .resolution {}).build
    ∃ plan, run ⟨env, {}, .never, none⟩ [⟨r, false⟩] = .ok plan ∧ plan.touchesRawMemory = false ∧
      plan.stubs = [] ∧ plan.singletons.length = 1 ∧
      ∀ outer ∈ plan.plans, ∀ around nested, outer.Within around nested →
        nested.IsUntouched (env.root.within around) := by
  intro a b r z needs env
  have hsummary : (run ⟨env, {}, .never, none⟩ [⟨r, false⟩]).toOption.map (fun plan =>
      (plan.touchesRawMemory, plan.stubs.length, plan.singletons.length)) = some (false, 0, 1) := by
    cbv
  obtain ⟨plan, hplan, hsummary⟩ := Option.map_eq_some_iff.mp hsummary
  have hok := Run.ok_of_toOption hplan
  obtain ⟨hraw, hsummary⟩ := Prod.mk.inj hsummary
  obtain ⟨hstubs, hsingletons⟩ := Prod.mk.inj hsummary
  have hconsistent : env.catalog.Consistent := .of_flat (by cbv) (by decide +kernel) rfl
  have hregular : env.catalog.IsRegular := Declarations.Composed.isRegular
    (.constructor (.constructor (.constructor .empty _ _ _) _ _ _) _ _ _)
  exact ⟨plan, hok, hraw, List.length_eq_zero_iff.mp hstubs, hsingletons,
    untouched _ _ plan hok hraw (coherent_meets hconsistent _) (types_agree hregular _)⟩

/-- Two providers of one identity that are not alike: the survey passes over the second, which needs a
pointer, and the plan of the root passes the pointer on. -/
theorem not_untouched :
    let f : Ty := .plain "F"
    let byte : Ty := .plain "byte"
    let r : Ty := .plain "R"
    let ia : Ty := .plain "IA"
    let ib : Ty := .plain "IB"
    let needs (tys : List Ty) : List Parameter := tys.map fun ty => ⟨"", 0, ty, false⟩
    let env := ((({} : Declarations).addConstructor (.new f []) .dependency { exposedAs := [ia] })
      |>.addConstructor (.new f (needs [.pointer byte])) .dependency { exposedAs := [ib] }
      |>.addMember ⟨.plain "Buffers", "start", .pointer byte⟩
      |>.addConstructor (.new r (needs [ia, ib])) .resolution {}).build
    ∃ plan, run ⟨env, {}, .never, none⟩ [⟨r, false⟩] = .ok plan ∧ plan.touchesRawMemory = false ∧
      ∃ root ∈ plan.roots, ∃ body, root.plan? = some body ∧
        ∃ step ∈ body.steps, ∃ p, step.statement.provider? = some p ∧ p.ty.isRaw = true := by
  intro f byte r ia ib needs env
  have hsummary : (run ⟨env, {}, .never, none⟩ [⟨r, false⟩]).toOption.map (fun plan =>
      (plan.touchesRawMemory, plan.roots.map fun root => root.plan?.map fun body =>
        body.steps.any fun step => step.statement.provider?.any fun p => p.ty.isRaw)) =
      some (false, [some true]) := by cbv
  obtain ⟨plan, hplan, hsummary⟩ := Option.map_eq_some_iff.mp hsummary
  obtain ⟨hraw, hroots⟩ := Prod.mk.inj hsummary
  obtain ⟨root, rest, hroots, hroot, -⟩ := List.map_eq_cons_iff.mp hroots
  obtain ⟨body, hbody, hany⟩ := Option.map_eq_some_iff.mp hroot
  obtain ⟨step, hstep, hprovider⟩ := List.any_eq_true.mp hany
  obtain ⟨p, hp, htouches⟩ := (Option.any_eq_true _ _).mp hprovider
  exact ⟨plan, Run.ok_of_toOption hplan, hraw, root, hroots ▸ List.mem_cons_self, body, hbody, step,
    hstep, p, hp, htouches⟩

end ContainerPlan

end Wiring
