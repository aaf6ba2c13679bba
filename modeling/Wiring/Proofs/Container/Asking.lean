import Wiring.Proofs.Container.Accessors

/-!
# Which singletons ask for which

* `ContainerPlan.run_ok` — how a container was planned.
* `ContainerPlan.Asks` — the plan of one accessor asks for another singleton, in a body or not.
* `ContainerPlan.mem_dependenciesAt` — those are the dependencies recorded with the accessor, but for
  the singleton itself.
-/

namespace Wiring.ContainerPlan

/-- How a container was planned: the roots first, then the accessors of the singletons met in them and
in one another, and last the order of creation. -/
theorem run_ok {c : Settings} {requests : List RootRequest} {plan : ContainerPlan}
    (h : run c requests = .ok plan) :
    ∃ planned, requests.mapM (planRoot c) = .ok planned ∧ plan.roots = planned.map (·.1) ∧
      PlansAccessors c plan.asyncRelease 0
        (((plan.roots.filterMap RootPlan.plan?).flatMap Plan.singletons).foldl addNew []) []
        plan.singletons ∧
      plan.creationOrder = Wiring.creationOrder (plan.singletons.map Accessor.dependencies) ∧
      plan.asyncRelease = requests.any RootRequest.isAsync := by
  unfold run at h
  obtain ⟨planned, hplanned, h₁⟩ := Run.except_bind_ok.mp h
  obtain ⟨singletons, hsingletons, h₂⟩ := Run.except_bind_ok.mp h₁
  cases h₂
  refine ⟨planned, hplanned, rfl, ?_, rfl, rfl⟩
  rw [List.foldl_flatMap]
  exact planAccessors_sound hsingletons

/-- The plan of the accessor at one position asks for the singleton at another. -/
def Asks (plan : ContainerPlan) (i j : Nat) : Prop :=
  ∃ a b, plan.singletons[i]? = some a ∧ plan.singletons[j]? = some b ∧
    ∃ p ∈ a.plan.singletons, p.same b.provider = true

/-- The positions that the singleton at a position depends on. -/
def dependenciesAt (plan : ContainerPlan) (i : Nat) : List Nat :=
  ((plan.singletons.map Accessor.dependencies)[i]?).getD []

/-- The singleton at a position depends on the others that its accessor asks for. -/
theorem mem_dependenciesAt {c : Settings} {requests : List RootRequest} {plan : ContainerPlan}
    (h : run c requests = .ok plan) {i j : Nat} :
    j ∈ plan.dependenciesAt i ↔ j ≠ i ∧ plan.Asks i j := by
  obtain ⟨planned, -, -, haccessors, -⟩ := run_ok h
  have hlength := haccessors.length_eq (Nat.zero_le _)
  have hspec := fun k a => haccessors.spec (k := k) (a := a) (Distinct.nil.foldl_addNew _)
  simp only [Nat.zero_add] at hlength hspec
  generalize metAfter _ plan.singletons = final at hlength hspec
  -- The singletons met in the end are those of the accessors, position by position.
  have hfinal : ∀ (k : Nat) (q : Provider), final[k]? = some q ↔
      ∃ a : Accessor, plan.singletons[k]? = some a ∧ a.provider = q := by
    intro k q
    constructor
    · intro hk
      have hlt : k < plan.singletons.length := hlength ▸ (List.getElem?_eq_some_iff.mp hk).1
      refine ⟨_, List.getElem?_eq_getElem hlt, ?_⟩
      exact Option.some.inj ((hspec k _ (List.getElem?_eq_getElem hlt)).1.symm.trans hk)
    · rintro ⟨a, ha, rfl⟩
      exact (hspec k a ha).1
  unfold dependenciesAt Asks
  cases hi : plan.singletons[i]? with
  | none => simp [hi]
  | some a =>
      simp only [List.getElem?_map, hi, Option.map_some, Option.getD_some, (hspec i a hi).2 j]
      refine and_congr_right fun _ => ⟨?_, ?_⟩
      · rintro ⟨q, hq, p, hp, hsame⟩
        obtain ⟨b, hb, rfl⟩ := (hfinal j q).mp hq
        exact ⟨a, b, rfl, hb, p, hp, hsame⟩
      · rintro ⟨a', b, ha', hb, p, hp, hsame⟩
        cases ha'
        exact ⟨b.provider, (hfinal j _).mpr ⟨b, hb, rfl⟩, p, hp, hsame⟩

end Wiring.ContainerPlan
