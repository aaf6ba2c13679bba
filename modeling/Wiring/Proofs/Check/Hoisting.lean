import Mathlib
import Wiring.Declarations
import Wiring.Proofs.Assembly.Coverage
import Wiring.Proofs.Assembly.Reach
import Wiring.Proofs.Check.Reports
import Wiring.Proofs.Container.Accessors
import Wiring.Proofs.Unfolding.Consistency

/-!
# What the check rejects though it can be planned

A synchronous delegate can use a singleton that suspends: planning obtains the singleton before the
delegate, where it can wait. The check knows nothing of that and reports what the singleton waits for.
It reports no more than that: of an asynchronous root that can be planned, nothing else is said to
require asynchronous resolution.

* `Plan.Draws` — the plans that a plan draws in: its own and those of accessors, asked directly or not.
* `Plan.IsSupported` — the plans drawn in exist, and no synchronous body takes waiting for.
* `Place.Hoists` — what a singleton waits for that is needed where nothing can wait.
* `matched_of_leads` — the plans drawn in cover the unfolding of the root.
* `Check.requires_hoisted` — only what is hoisted is reported to require asynchronous resolution.
-/

namespace Wiring

/-! ### The plans of a resolution -/

section

variable (config : Config) (trigger : Trigger) (env : Environment) (asyncRelease : Bool) (root : Plan)

/-- The plan itself, and the plans of the accessors that it asks, directly or through the plan of another
accessor. -/
inductive Plan.Draws : Plan → Prop
  | root : Draws root
  | accessor {plan accessor : Plan} {p : Provider} {answer : Bool} (hplan : Draws plan)
      (hp : p ∈ plan.singletons)
      (hanswer : Survey.suspends config.maxDepth trigger env p = .ok answer)
      (haccessor : planAccessor config trigger env asyncRelease answer p = .ok accessor) :
      Draws accessor

/-- Every accessor asked can be planned, and no synchronous body in any of the plans takes waiting
for. -/
structure Plan.IsSupported : Prop where
  accessors : ∀ plan, root.Draws config trigger env asyncRelease plan → ∀ p ∈ plan.singletons,
    ∃ answer accessor, Survey.suspends config.maxDepth trigger env p = .ok answer ∧
      planAccessor config trigger env asyncRelease answer p = .ok accessor
  bodies : ∀ plan, root.Draws config trigger env asyncRelease plan → plan.HasImmediateBodies

/-- Whether no synchronous body in the tree takes waiting for. -/
def Plan.hasImmediateBodies (plan : Plan) : Bool :=
  plan.tree.all fun carrier => carrier.statement.body?.all fun body =>
    carrier.statement.isBodyAsync || body.steps.all fun step => step.statement.isImmediate

/-- Whether a plan is supported, followed through so many accessors. -/
def Plan.isSupported (config : Config) (trigger : Trigger) (env : Environment) (asyncRelease : Bool) :
    (steps : Nat) → Plan → Bool
  | 0, _ => false
  | steps + 1, plan =>
      plan.hasImmediateBodies && plan.singletons.all fun p =>
        (Survey.suspends config.maxDepth trigger env p).toOption.any fun answer =>
          (planAccessor config trigger env asyncRelease answer p).toOption.any fun accessor =>
            isSupported config trigger env asyncRelease steps accessor

end

section

variable {config : Config} {trigger : Trigger} {env : Environment} {asyncRelease : Bool}
  {root plan : Plan} {among : Provider → Prop} {target p q : Provider} {x y z w : Place}
  {i : Provider.Identity}

theorem Plan.hasImmediateBodies_of_tree (h : plan.hasImmediateBodies = true) :
    plan.HasImmediateBodies := by
  intro around nested carrier body hwithin hcarrier hbody hwaits step hstep
  have hall := List.all_eq_true.mp h carrier (hwithin.mem_tree hcarrier)
  rw [hbody, Option.all_some, hwaits, Bool.false_or] at hall
  exact List.all_eq_true.mp hall step hstep

theorem Plan.isSupported_succ {steps : Nat}
    (h : plan.isSupported config trigger env asyncRelease steps = true) :
    plan.HasImmediateBodies ∧ ∀ p ∈ plan.singletons, ∃ answer accessor,
      Survey.suspends config.maxDepth trigger env p = .ok answer ∧
      planAccessor config trigger env asyncRelease answer p = .ok accessor ∧
      accessor.isSupported config trigger env asyncRelease (steps - 1) = true := by
  cases steps with
  | zero => cases h
  | succ steps =>
      obtain ⟨hbodies, hall⟩ := Bool.and_eq_true_iff.mp h
      refine ⟨Plan.hasImmediateBodies_of_tree hbodies, fun p hp => ?_⟩
      obtain ⟨answer, hanswer, hany⟩ := (Option.any_eq_true _ _).mp (List.all_eq_true.mp hall p hp)
      obtain ⟨accessor, haccessor, hsupported⟩ := (Option.any_eq_true _ _).mp hany
      exact ⟨answer, accessor, Run.ok_of_toOption hanswer, Run.ok_of_toOption haccessor, hsupported⟩

/-- What is found to be supported is. -/
theorem Plan.IsSupported.of_isSupported {steps : Nat}
    (h : root.isSupported config trigger env asyncRelease steps = true) :
    root.IsSupported config trigger env asyncRelease := by
  have hdrawn : ∀ plan, root.Draws config trigger env asyncRelease plan →
      ∃ steps, plan.isSupported config trigger env asyncRelease steps = true := by
    intro plan hdraws
    induction hdraws with
    | root => exact ⟨steps, h⟩
    | accessor _ hp hanswer haccessor ih =>
        obtain ⟨steps, hplan⟩ := ih
        obtain ⟨answer, accessor, hanswer', haccessor', hsupported⟩ :=
          (Plan.isSupported_succ hplan).2 _ hp
        cases hanswer.symm.trans hanswer'
        cases haccessor.symm.trans haccessor'
        exact ⟨steps - 1, hsupported⟩
  refine ⟨fun plan hdraws p hp => ?_, fun plan hdraws => ?_⟩
  · obtain ⟨_, hplan⟩ := hdrawn plan hdraws
    obtain ⟨answer, accessor, hanswer, haccessor, -⟩ := (Plan.isSupported_succ hplan).2 p hp
    exact ⟨answer, accessor, hanswer, haccessor⟩
  · obtain ⟨_, hplan⟩ := hdrawn plan hdraws
    exact (Plan.isSupported_succ hplan).1

/-- A plan that was assembled among the given providers for its own sake. -/
structure Plan.IsWhole (among : Provider → Prop) (env : Environment) (plan : Plan) : Prop where
  assembled : ∃ c σ target, Assembly.Assembled c σ target plan ∧ σ.IsOutermost ∧ σ.among = among ∧
    σ.base = env
  about : plan.IsAbout ((Reach.within among).Finds env.catalog) env

/-- A singleton found is met at the container, too. -/
theorem within_of_finds (h : (Reach.within among).Finds env.catalog p) (hsingle : p.lifetime = .single)
    {env' : Environment} (hcatalog : env'.catalog = env.catalog) :
    ∃ waits, (Place.mk env' waits (Environment.given p)).Within among := by
  obtain ⟨env₁, -, hcatalog₁, isAsync, hwithin⟩ := h
  exact ⟨isAsync, hwithin.of_env hsingle (hcatalog.trans hcatalog₁.symm)⟩

theorem planResolution_isWhole {isAsync : Bool}
    (h : planResolution config trigger env isAsync target = .ok plan)
    (hbelow : ∃ waits, (Place.mk env waits (Environment.given target)).Within among) :
    plan.IsWhole among env :=
  let ⟨_, hwithin⟩ := hbelow
  ⟨⟨_, _, _, Assembly.planResolution_assembled h hwithin, ⟨rfl, rfl⟩, rfl, rfl⟩,
    planResolution_isAbout (Reach.isClosed_within among) h hbelow⟩

theorem planAccessor_isWhole {isAsync : Bool} (hcontainer : env.isContainer = true)
    (h : planAccessor config trigger env asyncRelease isAsync target = .ok plan)
    (hsingle : target.lifetime = .single)
    (hfinds : (Reach.within among).Finds env.catalog target) : plan.IsWhole among env :=
  ⟨⟨_, _, _, (Assembly.planAccessor_assembled hcontainer h hsingle
      (within_of_finds hfinds hsingle rfl)).1, ⟨rfl, rfl⟩, rfl, rfl⟩,
    planAccessor_isAbout (Reach.isClosed_within among) hcontainer h hsingle hfinds⟩

/-- A singleton that a whole plan asks for is found among the providers. -/
theorem Plan.IsWhole.asked (h : plan.IsWhole among env) (hp : p ∈ plan.singletons) :
    (Reach.within among).Finds env.catalog p ∧ p.lifetime = .single := by
  obtain ⟨step, hstep, name, isAsync, hasks⟩ := Plan.askedIn_of_mem_singletons hp
  exact h.about.asked hstep hasks

/-- The plans drawn in by a whole plan are whole. -/
theorem Plan.Draws.isWhole (h : root.Draws config trigger env asyncRelease plan)
    (hcontainer : env.isContainer = true) (hroot : root.IsWhole among env) :
    plan.IsWhole among env := by
  induction h with
  | root => exact hroot
  | accessor _ hp _ haccessor ih =>
      obtain ⟨hfinds, hsingle⟩ := ih.asked hp
      exact planAccessor_isWhole hcontainer haccessor hsingle hfinds

/-! ### The unfolding is covered -/

/-- A place whose value is made in one of the plans drawn in. -/
def Plan.Covers (among : Provider → Prop) (config : Config) (trigger : Trigger) (env : Environment)
    (asyncRelease : Bool) (root : Plan) (w : Place) : Prop :=
  ∃ plan, root.Draws config trigger env asyncRelease plan ∧ plan.Makes among env w

/-- A singleton that one of the plans drawn in offers. -/
def Plan.Knows (config : Config) (trigger : Trigger) (env : Environment) (asyncRelease : Bool)
    (root : Plan) (i : Provider.Identity) : Prop :=
  ∃ plan, root.Draws config trigger env asyncRelease plan ∧ plan.Offers i

/-- A place is served by the plans drawn in. -/
abbrev Plan.Serves (among : Provider → Prop) (config : Config) (trigger : Trigger) (env : Environment)
    (asyncRelease : Bool) (root : Plan) (y : Place) : Prop :=
  Served (root.Covers among config trigger env asyncRelease)
    (root.Knows config trigger env asyncRelease) y

theorem Environment.catalog_within (env : Environment) (around : List (Plan × Step)) :
    (env.within around).catalog = env.catalog := by
  induction around with
  | nil => rfl
  | cons level around ih =>
      change ((level.2.statement.provider?.map (env.within around).enter).getD
        (env.within around)).catalog = _
      cases level.2.statement.provider? with
      | none => exact ih
      | some p => exact (Environment.catalog_enter _ p).trans ih

theorem Statement.provider_of_value {statement : Statement} (h : statement.value? = some p) :
    statement.provider? = some p := by
  unfold value? at h
  split at h <;> cases h <;> rfl

section

variable (hcoherent : Coherent among) (hcontainer : env.isContainer = true)
  (hroot : root.IsWhole among env) (hsupported : root.IsSupported config trigger env asyncRelease)

include hcoherent hcontainer hroot hsupported

/-- The dependencies of what is covered are served. -/
theorem Plan.Covers.served (h : root.Covers among config trigger env asyncRelease w)
    (hy : w.Next y) : root.Serves among config trigger env asyncRelease y := by
  obtain ⟨plan, hdraws, hmakes⟩ := h
  obtain ⟨c, σ, target, hassembled, hout, hamong, henv⟩ := (hdraws.isWhole hcontainer hroot).assembled
  subst hamong henv
  exact (hassembled.served_next hcoherent hout (hsupported.bodies plan hdraws) hmakes hy).mono
    (fun _ hmade => ⟨plan, hdraws, hmade⟩) fun _ hoffers => ⟨plan, hdraws, hoffers⟩

omit hcoherent in
/-- A singleton known is covered: by the plan that makes it, or by that of its accessor. -/
theorem Plan.Knows.covered (h : root.Knows config trigger env asyncRelease i) :
    ∃ w p, root.Covers among config trigger env asyncRelease w ∧ w.request.provider? = some p ∧
      p.lifetime = .single ∧ p.identity = i ∧ w.env.catalog = env.catalog := by
  obtain ⟨plan, hdraws, step, hstep, p, hvalue, hsingle, rfl⟩ := h
  have hwhole := hdraws.isWhole hcontainer hroot
  rcases Statement.made_of_value hvalue with ⟨name, isAsync, hasks⟩ | hmade
  · obtain ⟨q, hq, hsame⟩ := Plan.exists_same_singletons ⟨step, hstep, name, isAsync, hasks⟩
    obtain ⟨answer, accessor, hanswer, haccessor⟩ := hsupported.accessors plan hdraws q hq
    obtain ⟨hfinds, hqsingle⟩ := hwhole.asked hq
    obtain ⟨waits, hbelow⟩ := within_of_finds hfinds hqsingle rfl
    obtain ⟨-, maker, hmaker, hmade⟩ :=
      Assembly.planAccessor_assembled hcontainer haccessor hqsingle ⟨waits, hbelow⟩
    exact ⟨⟨env, true, Environment.given q⟩, q,
      ⟨accessor, .accessor hdraws hq hanswer haccessor, .intro .root hmaker hmade
        (hbelow.provider rfl) rfl rfl rfl rfl (hbelow.of_isAsync true)⟩, rfl, hqsingle,
      (same_iff.mp hsame).symm, rfl⟩
  · obtain ⟨around, nested, hwithin, hstep⟩ := Plan.exists_within .root hstep
    have hfinds := ((hwhole.about.within hwithin).step hstep).provider p
      (Statement.provider_of_value hvalue)
    have hcatalog := Environment.catalog_within env around
    obtain ⟨waits, hbelow⟩ := within_of_finds hfinds hsingle hcatalog
    exact ⟨⟨env.within around, canWait true around, Environment.given p⟩, p,
      ⟨plan, hdraws, .intro hwithin hstep hmade (hbelow.provider rfl) rfl rfl rfl rfl
        (hbelow.of_isAsync _)⟩, rfl, hsingle, rfl, hcatalog⟩

end

/-! ### What is hoisted -/

/-- A singleton is needed below the root where nothing can wait, and what is requested at the place is
needed for it, outside the bodies of asynchronous delegates. -/
def Place.Hoists (start x : Place) : Prop :=
  ∃ y p, start.Leads y ∧ y.isAsync = false ∧ y.request.provider? = some p ∧ p.lifetime = .single ∧
    y.LeadsThrough Provider.IsFollowed x

namespace Place

variable {start : Place}

/-- A singleton is needed for itself. -/
theorem Hoists.of_single (hx : start.Leads x) (hwaits : x.isAsync = false)
    (hp : x.request.provider? = some p) (hsingle : p.lifetime = .single) : start.Hoists x :=
  ⟨x, p, hx, hwaits, hp, hsingle, .refl⟩

/-- Below a provider without a body of its own the same is needed. -/
theorem Hoists.next (h : start.Hoists x) (hp : x.request.provider? = some p)
    (hbody : p.identity.isBody = false) (hxy : x.Next y) : start.Hoists y := by
  obtain ⟨z, q, hz, hwaits, hq, hsingle, hzx⟩ := h
  refine ⟨z, q, hz, hwaits, hq, hsingle, hzx.tail ⟨fun p' hp' => ?_, hxy⟩⟩
  cases hp.symm.trans hp'
  rintro ⟨hdelegate, -⟩
  obtain ⟨ty, result, params, isAsync, rfl⟩ := Provider.eq_delegate hdelegate
  cases hbody

theorem Next.isAsync_eq (h : x.Next y) (hp : x.request.provider? = some p) :
    y.isAsync = p.waits x.isAsync := by
  obtain ⟨hprovider, -⟩ := h
  cases hp.symm.trans hprovider
  rfl

end Place

theorem Provider.Alike.isParameter (h : p.Alike q) (hq : q.IsParameter) : p.IsParameter := by
  obtain ⟨param, name, depth, rfl⟩ := hq
  exact ⟨param, name, depth, Provider.eq_parameter_of_identity h.identity⟩

theorem Place.Resembles.untracked (h : x.Resembles true y) : x.Resembles false y :=
  let ⟨p, q, hp, hq, hidentity, _, hcovers⟩ := h
  ⟨p, q, hp, hq, hidentity, fun htracked => absurd htracked Bool.false_ne_true, hcovers⟩

theorem Plan.Covers.within (h : root.Covers among config trigger env asyncRelease w) :
    w.Within among :=
  let ⟨_, _, hmakes⟩ := h
  hmakes.below

theorem Provider.isBody_of_single (h : p.lifetime = .single) : p.identity.isBody = false := by
  cases p <;> first | rfl | cases h

/-- A place mirrors one that is served. Where the place cannot wait though the other can, a singleton
is needed for which the plans wait elsewhere. -/
def Matched (serves : Place → Prop) (among : Provider → Prop) (start x : Place) : Prop :=
  ∃ y, serves y ∧ y.Within among ∧ x.Mirrors false y ∧
    (x.isAsync = false → y.isAsync = true → start.Hoists x)

section

variable {start : Place} (hcoherent : Coherent among) (hcontainer : env.isContainer = true)
  (hroot : root.IsWhole among env) (hsupported : root.IsSupported config trigger env asyncRelease)

include hcoherent hcontainer hroot hsupported

/-- From a place that is matched, the places next to it are: what it is matched with resembles a place
whose dependencies are served, and they mirror one another. -/
theorem Matched.next (hx : start.Leads x) (hxwithin : x.Within among)
    (hcatalog : x.env.catalog = env.catalog)
    (h : Matched (root.Serves among config trigger env asyncRelease) among start x) (hxz : x.Next z) :
    Matched (root.Serves among config trigger env asyncRelease) among start z := by
  obtain ⟨y, hserved, hywithin, hmirrors, hhoists⟩ := h
  obtain ⟨p, hp⟩ : ∃ p, x.request.provider? = some p := by
    cases hxz with
    | intro hprovider _ => exact ⟨_, hprovider⟩
  have hparameter := hxz.not_parameter hp
  obtain ⟨q, hq, halike⟩ := hmirrors.alike hcoherent hxwithin hywithin hp hparameter
  -- Whatever serves `y` resembles a place that is covered.
  have hcovered : ∃ w, root.Covers among config trigger env asyncRelease w ∧ w.Within among ∧
      x.Resembles false w ∧ ∀ y', w.Next y' → z.isAsync = false → y'.isAsync = true →
        start.Hoists z := by
    cases hserved with
    -- What leads on is no parameter and has a provider. A singleton has an accessor, which is covered;
    -- anything else was made, at a place that is covered.
    | absent hnone => cases hq.symm.trans hnone
    | parameter hq' hisParameter =>
        cases hq.symm.trans hq'
        exact absurd (halike.isParameter hisParameter) hparameter
    | single hq' hsingle hknown =>
        cases hq.symm.trans hq'
        obtain ⟨w, r, hw, hr, hrsingle, hri, hwcatalog⟩ :=
          Plan.Knows.covered hcontainer hroot hsupported hknown
        have hpsingle : p.lifetime = .single := halike.lifetime.trans hsingle
        have hbody := Provider.isBody_of_single hpsingle
        refine ⟨w, hw, hw.within, ⟨p, r, hp, hr, halike.identity.trans hri.symm,
          fun htracked => absurd htracked Bool.false_ne_true, ?_⟩, fun y' _ hzwaits _ => ?_⟩
        · rw [x.env.enter_of_single hpsingle, w.env.enter_of_single hrsingle, Environment.root,
            Environment.root, hcatalog, hwcatalog]
          exact .refl _
        · rw [hxz.isAsync_eq hp, Provider.waits_eq, hbody] at hzwaits
          exact (Place.Hoists.of_single hx hzwaits hp hpsingle).next hp hbody hxz
    | @made q' w hq' _ hw hyw =>
        cases hq.symm.trans hq'
        have hxy := hmirrors.resembles hcoherent hxwithin hywithin hp hparameter
        refine ⟨w, hw, hw.within, hxy.trans hyw.untracked, fun y' hy' hzwaits hy'waits => ?_⟩
        obtain ⟨q', r, hq', hr, -, hsame, -⟩ := hyw
        cases hq.symm.trans hq'
        rw [hy'.isAsync_eq hr, ← hsame rfl, ← halike.waits] at hy'waits
        rw [hxz.isAsync_eq hp] at hzwaits
        rw [Provider.waits_eq] at hzwaits hy'waits
        -- A body decides for itself whether it waits, and it does so alike.
        cases hbody : p.identity.isBody with
        | true =>
            rw [hbody] at hzwaits hy'waits
            cases hzwaits.symm.trans hy'waits
        | false =>
            rw [hbody] at hzwaits hy'waits
            exact (hhoists hzwaits hy'waits).next hp hbody hxz
  obtain ⟨w, hw, hwwithin, hresembles, hwaits⟩ := hcovered
  obtain ⟨y', hy', hmirrors'⟩ := hresembles.next hcoherent hxwithin hwwithin hxz
  exact ⟨y', hw.served hcoherent hcontainer hroot hsupported hy', hwwithin.next hy', hmirrors',
    hwaits y' hy'⟩

/-- The plans drawn in cover the unfolding of the place that the whole was planned for. -/
theorem matched_of_leads (hstart : root.Serves among config trigger env asyncRelease start)
    (hwithin : start.Within among) (hcatalog : start.env.catalog = env.catalog)
    (hwaits : start.isAsync = true) (hx : start.Leads x) :
    Matched (root.Serves among config trigger env asyncRelease) among start x := by
  induction hx with
  | refl =>
      exact ⟨start, hstart, hwithin, .refl _, fun hsync => absurd (hsync.symm.trans hwaits) (by simp)⟩
  | tail hleads hnext ih =>
      exact ih.next hcoherent hcontainer hroot hsupported hleads (hwithin.leads hleads)
        ((Place.catalog_of_leads hleads).trans hcatalog) hnext

end

/-- A place that is stuck though it is matched is hoisted. -/
theorem Matched.hoists {start : Place} (hcoherent : Coherent among)
    (h : Matched (root.Serves among config trigger env asyncRelease) among start x)
    (hx : start.Leads x) (hwithin : x.Within among) (hstuck : x.IsStuck p) : start.Hoists x := by
  obtain ⟨hp, hasync, hdelegate, hwaits⟩ := hstuck
  obtain ⟨y, hserved, hywithin, hmirrors, hhoists⟩ := h
  obtain ⟨q, hq, halike⟩ := hmirrors.alike hcoherent hwithin hywithin hp
    (by rintro ⟨_, _, _, rfl⟩; cases hasync)
  cases hserved with
  | absent hnone => cases hq.symm.trans hnone
  | parameter hq' hisParameter =>
      obtain ⟨_, _, _, rfl⟩ := halike.isParameter (by cases hq.symm.trans hq'; exact hisParameter)
      cases hasync
  | single hq' hsingle _ =>
      cases hq.symm.trans hq'
      exact .of_single hx hwaits hp (halike.lifetime.trans hsingle)
  | made hq' hready _ _ =>
      cases hq.symm.trans hq'
      refine hhoists hwaits ((hready (halike.isAsync ▸ hasync)).resolve_right ?_)
      rw [← halike.isDelegate, hdelegate]
      exact Bool.false_ne_true

end

namespace Check

/-- In a container whose providers of one identity are alike, of an asynchronous root that can be planned,
accessors included, and no synchronous body of which takes waiting for, only what is hoisted is reported
to require asynchronous resolution. -/
theorem requires_hoisted (c : Settings) (config : Config) (trigger : Trigger) (env : Environment)
    (asyncRelease : Bool) (target : Provider) (root : Plan)
    (hcoherent : Coherent (Place.atRoot env c.root true).Meets)
    (hlookup : env.root.lookup c.root = some target)
    (hplan : planResolution config trigger env.root true target = .ok root)
    (hsupported : root.IsSupported config trigger env.root asyncRelease) :
    ∀ d ∈ (run c env true).diagnostics, d.kind = .requiresAsync →
      ∃ x p, (Place.atRoot env c.root true).Hoists x ∧ x.IsStuck p ∧ d.offending = p.ty := by
  intro d hd hkind
  obtain ⟨x, p, hx, hstuck, hoffending⟩ := run_reports hd hkind
  have hwithin := Place.within_meets (Place.atRoot env c.root true)
  have hbelow := hwithin.given hlookup
  have hroot : root.IsWhole (Place.atRoot env c.root true).Meets env.root :=
    planResolution_isWhole hplan ⟨_, hbelow⟩
  have hstart : root.Serves (Place.atRoot env c.root true).Meets config trigger env.root asyncRelease
      (Place.atRoot env c.root true) := by
    refine Served.mono ?_ (fun _ hmade => ⟨root, .root, hmade⟩) fun _ hoffers => ⟨root, .root, hoffers⟩
    exact (Assembly.planResolution_assembled hplan hbelow).served_target hcoherent ⟨rfl, rfl⟩
      (hsupported.bodies root .root) hlookup hwithin rfl rfl
  have hmatched := matched_of_leads hcoherent rfl hroot hsupported hstart hwithin rfl rfl hx
  exact ⟨x, p, hmatched.hoists hcoherent hx (hwithin.leads hx) hstuck, hstuck, hoffending⟩

/-- A singleton in the body of a synchronous delegate that is itself created from a value which takes
waiting for: that value is reported. -/
theorem requires_hoisted_below :
    let r : Ty := .plain "R"
    let job : Ty := .plain "Job"
    let a : Ty := .plain "A"
    let x : Ty := .plain "X"
    let needs (tys : List Ty) : List Parameter := tys.map fun ty => ⟨"", 0, ty, false⟩
    let env := ((({} : Declarations).addConstructor (.new x []) .dependency { isAsync := true })
      |>.addConstructor (.new a (needs [x])) .single {}
      |>.addConstructor (.new job (needs [a])) .resolution {}
      |>.addConstructor (.new r (needs [.delegate [] job false])) .resolution {}).build
    let c : Settings := ⟨r, 16, .never, none⟩
    (run c env true).diagnostics = [⟨.requiresAsync, r, x, 0, none⟩] ∧
      ∃ y p, (Place.atRoot env r true).Hoists y ∧ y.IsStuck p ∧ x = p.ty := by
  intro r job a x needs env c
  have hconsistent : env.catalog.Consistent := .of_flat (by cbv) (by decide +kernel) rfl
  have hplanned : ((env.root.lookup r).bind fun target =>
      (planResolution {} .never env.root true target).toOption).any
        (Plan.isSupported {} .never env.root true 4) = true := by cbv
  obtain ⟨root, hroot, hsupported⟩ := (Option.any_eq_true _ _).mp hplanned
  obtain ⟨target, htarget, hplan⟩ := Option.bind_eq_some_iff.mp hroot
  have hdiagnostics : (run c env true).diagnostics = [⟨.requiresAsync, r, x, 0, none⟩] := by cbv
  exact ⟨hdiagnostics, requires_hoisted c {} .never env true target root
    (hconsistent.coherent_atRoot r true) htarget (Run.ok_of_toOption hplan)
    (.of_isSupported hsupported) ⟨.requiresAsync, r, x, 0, none⟩ (by rw [hdiagnostics]; simp) rfl⟩

/-- A synchronous delegate with a singleton that suspends in its body: the root can be planned, and the
check rejects it. -/
theorem requires_though_supported :
    let app : Ty := .plain "App"
    let job : Ty := .plain "Job"
    let client : Ty := .plain "Client"
    let needs (tys : List Ty) : List Parameter := tys.map fun ty => ⟨"", 0, ty, false⟩
    let env := ((({} : Declarations).addConstructor (.new app (needs [.delegate [] job false]))
        .resolution {})
      |>.addConstructor (.new job (needs [client])) .resolution {}
      |>.addConstructor (.new client []) .single { isAsync := true }).build
    let c : Settings := ⟨app, 16, .never, none⟩
    Coherent (Place.atRoot env app true).Meets ∧ (run c env true).error? = none ∧
      (run c env true).diagnostics = [⟨.requiresAsync, app, client, 0, none⟩] ∧
      ∃ target root, env.root.lookup app = some target ∧
        planResolution {} .never env.root true target = .ok root ∧
        root.IsSupported {} .never env.root true := by
  intro app job client needs env c
  have hconsistent : env.catalog.Consistent := .of_flat (by cbv) (by decide +kernel) rfl
  have hplanned : ((env.root.lookup app).bind fun target =>
      (planResolution {} .never env.root true target).toOption).any
        (Plan.isSupported {} .never env.root true 4) = true := by cbv
  obtain ⟨root, hroot, hsupported⟩ := (Option.any_eq_true _ _).mp hplanned
  obtain ⟨target, htarget, hplan⟩ := Option.bind_eq_some_iff.mp hroot
  exact ⟨hconsistent.coherent_atRoot app true, by cbv, by cbv, target, root, htarget,
    Run.ok_of_toOption hplan, .of_isSupported hsupported⟩

end Check

end Wiring
