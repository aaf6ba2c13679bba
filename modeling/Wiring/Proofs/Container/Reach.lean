import Wiring.Proofs.Assembly.Reach
import Wiring.Proofs.Container.Discovery

/-!
# What the plans of a container are about

A root is planned for what its type resolves to, an accessor for a singleton that another plan asks
for. So whatever the plans of a container are about is reached from its roots.

* `ContainerPlan.accessors_induction` — accessors are reached from the roots, by asking.
* `ContainerPlan.isAbout` — plans are about what is met from the roots on.
-/

namespace Wiring.ContainerPlan

variable {c : Settings} {requests : List RootRequest} {plan : ContainerPlan}

/-- A root with a plan was requested, and planned for what its type resolves to. -/
theorem root_planned (h : run c requests = .ok plan) {root : RootPlan} (hroot : root ∈ plan.roots)
    {body : Plan} (hbody : root.plan? = some body) :
    root.request ∈ requests ∧ ∃ target, c.env.root.lookup root.request.ty = some target ∧
      planResolution c.config c.trigger c.env.root root.request.isAsync target = .ok body := by
  obtain ⟨planned, hplanned, hroots, -⟩ := run_ok h
  rw [hroots] at hroot
  obtain ⟨⟨root', raw⟩, hentry, rfl⟩ := List.mem_map.mp hroot
  obtain ⟨request, hrequest, hrun⟩ := Run.except_mapM_ok hplanned _ hentry
  obtain ⟨hsame, -, -, target, hlookup, hplan⟩ := planRoot_ok hrun hbody
  exact ⟨hsame ▸ hrequest, target, hsame ▸ hlookup, hsame ▸ hplan⟩

/-- An accessor was planned for its singleton. -/
theorem accessor_planned (h : run c requests = .ok plan) {accessor : Accessor}
    (haccessor : accessor ∈ plan.singletons) :
    planAccessor c.config c.trigger c.env.root plan.asyncRelease accessor.isAsync accessor.provider =
      .ok accessor.plan := by
  obtain ⟨planned, -, -, hplans, -⟩ := run_ok h
  obtain ⟨k, hk⟩ := List.getElem?_of_mem haccessor
  obtain ⟨before, known, after, known', hat⟩ := hplans.planned hk
  exact (planAccessorAt_ok hat).2.1

/-- What holds of the singletons that the roots ask for, and is passed on to those that the plan of an
accessor asks for, holds of every singleton with an accessor. -/
theorem accessors_induction {P : Provider → Prop} (h : run c requests = .ok plan)
    (hroots : ∀ root ∈ plan.roots, ∀ body, root.plan? = some body → ∀ p ∈ body.singletons, P p)
    (haccessors : ∀ accessor ∈ plan.singletons, P accessor.provider →
      ∀ q ∈ accessor.plan.singletons, P q) :
    ∀ accessor ∈ plan.singletons, P accessor.provider := by
  obtain ⟨planned, -, -, hplans, -⟩ := run_ok h
  have hall : ∀ (k : Nat) (accessor : Accessor), plan.singletons[k]? = some accessor →
      P accessor.provider := by
    intro k
    induction k using Nat.strong_induction_on with
    | _ k ih =>
        intro accessor hk
        rcases hplans.brought hk with hmet | ⟨j, earlier, hj, hearlier, hasked⟩
        · obtain ⟨body, hbody, hp⟩ :=
            List.mem_flatMap.mp ((mem_of_mem_foldl_addNew hmet).resolve_left List.not_mem_nil)
          obtain ⟨root, hroot, hplan⟩ := List.mem_filterMap.mp hbody
          exact hroots root hroot body hplan _ hp
        · exact haccessors earlier (List.mem_of_getElem? hearlier) (ih j hj earlier hearlier) _ hasked
  intro accessor hmem
  obtain ⟨k, hk⟩ := List.getElem?_of_mem hmem
  exact hall k accessor hk

/-- If the values of the roots are met, whatever the plans are about is met somewhere, and so are the
singletons with an accessor. -/
theorem isAbout {R : Reach} (hR : R.IsClosed) (h : run c requests = .ok plan)
    (hroots : ∀ root ∈ plan.roots, ∀ body, root.plan? = some body → ∀ target,
      c.env.root.lookup root.request.ty = some target → R c.env.root [] target) :
    (∀ root ∈ plan.roots, ∀ body, root.plan? = some body →
      body.IsAbout (R.Finds c.env.catalog) c.env.root) ∧
    ∀ accessor ∈ plan.singletons, accessor.plan.IsAbout (R.Finds c.env.catalog) c.env.root := by
  have hrootPlans : ∀ root ∈ plan.roots, ∀ body, root.plan? = some body →
      body.IsAbout (R.Finds c.env.catalog) c.env.root := by
    intro root hroot body hbody
    obtain ⟨-, target, hlookup, hplan⟩ := root_planned h hroot hbody
    exact planResolution_isAbout hR hplan (hroots root hroot body hbody target hlookup)
  have hasked : ∀ body : Plan, body.IsAbout (R.Finds c.env.catalog) c.env.root →
      ∀ q ∈ body.singletons, R.Finds c.env.catalog q ∧ q.lifetime = .single := by
    intro body hbody q hq
    obtain ⟨step, hstep, name, isAsync, hasks⟩ := Plan.askedIn_of_mem_singletons hq
    exact hbody.asked hstep hasks
  have haccessor : ∀ accessor ∈ plan.singletons,
      R.Finds c.env.catalog accessor.provider ∧ accessor.provider.lifetime = .single →
        accessor.plan.IsAbout (R.Finds c.env.catalog) c.env.root := fun accessor hmem hp =>
    planAccessor_isAbout hR rfl (accessor_planned h hmem) hp.2 hp.1
  have hsingletons := accessors_induction h
    (fun root hroot body hbody => hasked body (hrootPlans root hroot body hbody))
    fun accessor hmem hp => hasked accessor.plan (haccessor accessor hmem hp)
  exact ⟨hrootPlans, fun accessor hmem => haccessor accessor hmem (hsingletons accessor hmem)⟩

end Wiring.ContainerPlan
