import Mathlib
import Wiring.Declarations
import Wiring.Proofs.Container.Discovery

/-!
# References agree with accessors

A plan that asks for a singleton says whether the accessor suspends, so that it can wait for it. Every
plan finds that out by itself, and so does the accessor. They agree where the providers of one
identity are alike.

* `VouchedSingleton.answer_eq` — whether a singleton suspends is known for its identity.
* `ContainerPlan.references_agree` — every reference agrees with the accessor it calls.
-/

namespace Wiring

/-- Two singletons of one identity suspend alike. -/
theorem VouchedSingleton.answer_eq {catalog : Catalog} {among : Provider → Prop} {p q : Provider}
    {answer answer' : Bool} (hhosts : catalog.Hosts among)
    (hp : VouchedSingleton catalog among p answer) (hq : VouchedSingleton catalog among q answer')
    (hsame : p.identity = q.identity) : answer = answer' := by
  have hforth : p.Suspends catalog → q.Suspends catalog :=
    (hhosts.coherent p q hp.met hq.met hsame).suspends hhosts hp.met hq.met hp.single
  have hback : q.Suspends catalog → p.Suspends catalog :=
    (hhosts.coherent q p hq.met hp.met hsame.symm).suspends hhosts hq.met hp.met hq.single
  exact Bool.eq_iff_iff.mpr (hp.suspends.trans (Iff.trans ⟨hforth, hback⟩ hq.suspends.symm))

namespace ContainerPlan

variable {c : Settings} {requests : List RootRequest} {plan : ContainerPlan}

/-- Whatever singleton a plan asks for, in a body or not, is vouched for as the reference says. -/
theorem vouched_reference (hcoherent : Coherent (Meets c requests)) (h : run c requests = .ok plan)
    {body : Plan} (hbody : body ∈ plan.plans) {step : Step} (hstep : step ∈ body.tree) {name : String}
    {p : Provider} {isAsync : Bool} (hp : step.statement = .single name p isAsync) :
    VouchedSingleton c.env.catalog (Meets c requests) p isAsync := by
  obtain ⟨hroots, haccessors⟩ := calm hcoherent h
  rcases List.mem_append.mp hbody with hbody | hbody
  · obtain ⟨root, hroot, hplan⟩ := List.mem_filterMap.mp hbody
    exact (hroots root hroot body hplan).asks_tree hstep hp
  · obtain ⟨accessor, haccessor, rfl⟩ := List.mem_map.mp hbody
    exact (haccessors accessor haccessor).2.asks_tree hstep hp

/-- In the plan of a container whose providers of one identity are alike, every reference to a
singleton has an accessor to call, and suspends if and only if that accessor does. -/
theorem references_agree (c : Settings) (requests : List RootRequest) (plan : ContainerPlan)
    (h : run c requests = .ok plan) (hcoherent : Coherent (Meets c requests)) :
    ∀ body ∈ plan.plans, ∀ step ∈ body.tree, ∀ name p isAsync,
      step.statement = .single name p isAsync →
        (∃ accessor ∈ plan.singletons, p.same accessor.provider = true) ∧
          ∀ accessor ∈ plan.singletons, p.same accessor.provider = true →
            accessor.isAsync = isAsync := by
  intro body hbody step hstep name p isAsync hp
  have hreference := vouched_reference hcoherent h hbody hstep hp
  refine ⟨?_, fun accessor haccessor hsame => ?_⟩
  · obtain ⟨i, accessor, hi, hsame⟩ := exists_accessor h hbody ⟨step, hstep, name, isAsync, hp⟩
    exact ⟨accessor, List.mem_of_getElem? hi, hsame⟩
  · have haccessor := ((calm hcoherent h).2 accessor haccessor).1
    exact haccessor.answer_eq (hosts hcoherent) hreference (same_iff.mp hsame).symm

/-- Two asynchronous roots, one of which asks in the body of a delegate, and the singleton between
them that suspends. -/
theorem references_agree_shared :
    let a : Ty := .plain "A"
    let q : Ty := .plain "Q"
    let r : Ty := .plain "R"
    let needs (tys : List Ty) : List Parameter := tys.map fun ty => ⟨"", 0, ty, false⟩
    let env := ((({} : Declarations).addConstructor (.new a []) .single { isAsync := true })
      |>.addConstructor (.new q (needs [a])) .resolution {}
      |>.addConstructor (.new r (needs [.delegate [] q true])) .resolution {}).build
    ∃ plan, run ⟨env, {}, .never, none⟩ [⟨q, true⟩, ⟨r, true⟩] = .ok plan ∧
      plan.singletons.map (fun accessor => (accessor.provider.ty, accessor.isAsync)) = [(a, true)] ∧
      ∀ body ∈ plan.plans, ∀ step ∈ body.tree, ∀ name p isAsync,
        step.statement = .single name p isAsync →
          (∃ accessor ∈ plan.singletons, p.same accessor.provider = true) ∧
            ∀ accessor ∈ plan.singletons, p.same accessor.provider = true →
              accessor.isAsync = isAsync := by
  intro a q r needs env
  have hsummary : (run ⟨env, {}, .never, none⟩ [⟨q, true⟩, ⟨r, true⟩]).toOption.map (fun plan =>
      plan.singletons.map fun accessor => (accessor.provider.ty, accessor.isAsync)) =
        some [(a, true)] := by cbv
  obtain ⟨plan, hplan, hsummary⟩ := Option.map_eq_some_iff.mp hsummary
  have hok := Run.ok_of_toOption hplan
  have hconsistent : env.catalog.Consistent := .of_flat (by cbv) (by decide +kernel) rfl
  exact ⟨plan, hok, hsummary, references_agree _ _ plan hok (coherent_meets hconsistent _)⟩

/-- The statement refers to one of the accessors and says otherwise whether it suspends. -/
def disputes (accessors : List Accessor) : Statement → Bool
  | .single _ p isAsync => accessors.any fun a => p.same a.provider && a.isAsync != isAsync
  | _ => false

theorem of_disputes {accessors : List Accessor} {statement : Statement}
    (h : disputes accessors statement = true) : ∃ name p isAsync,
      statement = .single name p isAsync ∧
        ∃ accessor ∈ accessors, p.same accessor.provider = true ∧ accessor.isAsync ≠ isAsync := by
  cases statement with
  | single name p isAsync =>
      obtain ⟨a, ha, hdisputed⟩ := List.any_eq_true.mp h
      obtain ⟨hsame, hne⟩ := Bool.and_eq_true_iff.mp hdisputed
      exact ⟨name, p, isAsync, rfl, a, ha, hsame, bne_iff_ne.mp hne⟩
  | _ => cases h

/-- A factory declared twice is one singleton: its accessor is planned for the declaration that does
not suspend, and the second root, which meets the other one, waits for it. -/
theorem references_disagree :
    let a : Ty := .plain "A"
    let ia : Ty := .plain "IA"
    let ib : Ty := .plain "IB"
    let env := ((({} : Declarations).addConstructor (.new a []) .single { exposedAs := [ia] })
      |>.addConstructor (.new a []) .single { isAsync := true, exposedAs := [ib] }).build
    ∃ plan, run ⟨env, {}, .never, none⟩ [⟨ia, false⟩, ⟨ib, true⟩] = .ok plan ∧
      ∃ body ∈ plan.plans, ∃ step ∈ body.tree, ∃ name p isAsync,
        step.statement = .single name p isAsync ∧
          ∃ accessor ∈ plan.singletons, p.same accessor.provider = true ∧
            accessor.isAsync ≠ isAsync := by
  intro a ia ib env
  have hsummary : (run ⟨env, {}, .never, none⟩ [⟨ia, false⟩, ⟨ib, true⟩]).toOption.map
      (fun plan => plan.plans.any fun body => body.tree.any fun step =>
        disputes plan.singletons step.statement) = some true := by cbv
  obtain ⟨plan, hplan, hsummary⟩ := Option.map_eq_some_iff.mp hsummary
  obtain ⟨body, hbody, hsteps⟩ := List.any_eq_true.mp hsummary
  obtain ⟨step, hstep, hdisputes⟩ := List.any_eq_true.mp hsteps
  exact ⟨plan, Run.ok_of_toOption hplan, body, hbody, step, hstep, of_disputes hdisputes⟩

end ContainerPlan

end Wiring
