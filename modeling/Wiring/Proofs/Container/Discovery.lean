import Mathlib
import Wiring.Declarations
import Wiring.Proofs.Container.Calm
import Wiring.Proofs.Names

/-!
# The accessors of a container are those asked for

The accessors are found on the way: a plan brings in the singletons it asks for, and their accessors
have plans that ask for more. In the end there is one accessor for each singleton that any plan asks
for, and none besides.

* `PlansAccessors.brought` — an accessor is planned because a root or an accessor before it asks for
  its singleton.
* `AccessorNames.disjoint` — accessors at different positions share no name.
* `ContainerPlan.accessors_exact` — closed, minimal and without duplicates.
-/

namespace Wiring

namespace AccessorNames

/-- All names that belong to an accessor. -/
def all (names : AccessorNames) : List String :=
  [names.field, names.lock, names.release, names.accessor]

theorem mem_all_ofType {ty : Ty} {index : Nat} {name : String} (h : name ∈ (ofType ty index).all) :
    ∃ stem, EndsPlain stem ∧ name = stem ++ toString index := by
  simp only [all, ofType, List.mem_cons, List.not_mem_nil, or_false] at h
  rcases h with rfl | rfl | rfl | rfl
  · exact ⟨_, .append _ rfl rfl, rfl⟩
  · exact ⟨_, by simp [EndsPlain], rfl⟩
  · exact ⟨_, by simp [EndsPlain], rfl⟩
  · exact ⟨_, .append _ rfl rfl, rfl⟩

/-- Accessors at different positions share no name, whatever the names stand for. -/
theorem disjoint {ty ty' : Ty} {i j : Nat} (h : i ≠ j) :
    (ofType ty i).all.Disjoint (ofType ty' j).all := by
  intro name hname hname'
  obtain ⟨stem, hstem, rfl⟩ := mem_all_ofType hname
  obtain ⟨stem', hstem', heq⟩ := mem_all_ofType hname'
  exact h (numbered_inj hstem hstem' heq).2

end AccessorNames

/-! ### Accessors -/

namespace ContainerPlan

variable {c : Settings} {asyncRelease : Bool}

theorem planAccessorAt_names {met met' : List Provider} {answers answers' : Survey.Answers}
    {index : Nat} {p : Provider} {accessor : Accessor}
    (h : planAccessorAt c asyncRelease met answers index p = .ok (accessor, met', answers')) :
    accessor.names = .ofType p.ty index := by
  unfold planAccessorAt at h
  split at h
  · cases h
  · obtain ⟨⟨isAsync, answers₁⟩, -, h₁⟩ := Run.except_bind_ok.mp h
    obtain ⟨plan, -, h₂⟩ := Run.except_bind_ok.mp h₁
    cases h₂
    rfl

/-- Every accessor was planned at its position for its singleton. -/
theorem PlansAccessors.planned {index : Nat} {met : List Provider} {answers : Survey.Answers}
    {accessors : List Accessor} (h : PlansAccessors c asyncRelease index met answers accessors)
    {k : Nat} {a : Accessor} (hk : accessors[k]? = some a) :
    ∃ before known after known',
      planAccessorAt c asyncRelease before known (index + k) a.provider = .ok (a, after, known') := by
  induction h generalizing k with
  | done _ => simp at hk
  | @next index met met' answers answers' p accessor rest _ hplanned _ ih =>
      cases k with
      | zero =>
          simp only [List.getElem?_cons_zero, Option.some.injEq] at hk
          subst hk
          obtain ⟨-, -, -, hprovider, -⟩ := planAccessorAt_ok hplanned
          exact ⟨met, answers, met', answers', hprovider ▸ hplanned⟩
      | succ k =>
          have := ih (k := k) (by simpa using hk)
          simpa [Nat.add_assoc, Nat.add_comm 1 k] using this

/-- An accessor is planned for a singleton that was met before, or that the plan of an accessor
before it asks for. -/
theorem PlansAccessors.brought {index : Nat} {met : List Provider} {answers : Survey.Answers}
    {accessors : List Accessor} (h : PlansAccessors c asyncRelease index met answers accessors)
    {k : Nat} {a : Accessor} (hk : accessors[k]? = some a) :
    a.provider ∈ met ∨
      ∃ j b, j < k ∧ accessors[j]? = some b ∧ a.provider ∈ b.plan.singletons := by
  induction h generalizing k with
  | done _ => simp at hk
  | @next index met met' answers answers' p accessor rest hsome hplanned _ ih =>
      obtain ⟨-, -, hmet', hprovider, -⟩ := planAccessorAt_ok hplanned
      cases k with
      | zero =>
          simp only [List.getElem?_cons_zero, Option.some.injEq] at hk
          subst hk
          rw [hprovider]
          exact .inl (List.mem_of_getElem? hsome)
      | succ k =>
          rcases ih (by simpa using hk) with hbefore | ⟨j, b, hj, hb, hasked⟩
          · rw [hmet'] at hbefore
            refine (mem_of_mem_foldl_addNew hbefore).imp_right fun hasked => ?_
            exact ⟨0, accessor, Nat.succ_pos k, rfl, hasked⟩
          · exact .inr ⟨j + 1, b, Nat.succ_lt_succ hj, by simpa using hb, hasked⟩

/-! ### Container plans -/

variable {requests : List RootRequest} {plan : ContainerPlan} {i j : Nat} {a b : Accessor}

/-- The singletons with an accessor are those that the plans ask for, each once. -/
theorem providers_eq (h : run c requests = .ok plan) :
    plan.singletons.map Accessor.provider = (plan.plans.flatMap Plan.singletons).foldl addNew [] := by
  obtain ⟨planned, -, -, haccessors, -⟩ := run_ok h
  have hlength := haccessors.length_eq (Nat.zero_le _)
  have hspec := fun k a => haccessors.spec (k := k) (a := a) (Distinct.nil.foldl_addNew _)
  have hfinal : (plan.plans.flatMap Plan.singletons).foldl addNew [] = metAfter
      (((plan.roots.filterMap RootPlan.plan?).flatMap Plan.singletons).foldl addNew [])
      plan.singletons := by
    simp [plans, metAfter, List.flatMap_append, List.flatMap_map, List.foldl_append]
  rw [← hfinal] at hlength hspec
  simp only [Nat.zero_add] at hlength hspec
  refine List.ext_getElem (by simpa using hlength.symm) fun k hk hk' => ?_
  have hlt : k < plan.singletons.length := by simpa using hk
  have hprovider := (hspec k _ (List.getElem?_eq_getElem hlt)).1
  rw [List.getElem_map]
  exact (Option.some.inj ((List.getElem?_eq_getElem hk').symm.trans hprovider)).symm

/-- No two accessors are of one identity. -/
theorem accessor_inj (h : run c requests = .ok plan) (hi : plan.singletons[i]? = some a)
    (hj : plan.singletons[j]? = some b) (hsame : a.provider.identity = b.provider.identity) :
    i = j := by
  have hdistinct : Distinct (plan.singletons.map Accessor.provider) :=
    providers_eq h ▸ Distinct.nil.foldl_addNew _
  exact hdistinct.index_inj (by simp [hi]) (by simp [hj]) hsame

/-- Whatever a plan asks for has an accessor. -/
theorem exists_accessor (h : run c requests = .ok plan) {body : Plan} (hbody : body ∈ plan.plans)
    {p : Provider} (hasked : AskedIn body.tree p) :
    ∃ (i : Nat) (a : Accessor), plan.singletons[i]? = some a ∧ p.same a.provider = true := by
  obtain ⟨q, hq, hsame⟩ := Plan.exists_same_singletons hasked
  have hmet : q ∈ plan.plans.flatMap Plan.singletons := List.mem_flatMap.mpr ⟨body, hbody, hq⟩
  obtain ⟨q', hq', hsame'⟩ : ∃ q' ∈ (plan.plans.flatMap Plan.singletons).foldl addNew [],
      q.same q' = true := exists_same_foldl_addNew hmet
  rw [← providers_eq h] at hq'
  obtain ⟨a, ha, rfl⟩ := List.mem_map.mp hq'
  obtain ⟨i, hi⟩ := List.getElem?_of_mem ha
  exact ⟨i, a, hi, same_iff.mpr ((same_iff.mp hsame).trans (same_iff.mp hsame'))⟩

/-- A singleton has an accessor because the plan of a root asks for it, or that of an accessor
before it. -/
theorem asked_by_earlier (h : run c requests = .ok plan) (hi : plan.singletons[i]? = some a) :
    (∃ root ∈ plan.roots, ∃ body, root.plan? = some body ∧ AskedIn body.tree a.provider) ∨
      ∃ (j : Nat) (b : Accessor), j < i ∧ plan.singletons[j]? = some b ∧ AskedIn b.plan.tree a.provider := by
  obtain ⟨planned, -, -, haccessors, -⟩ := run_ok h
  rcases haccessors.brought hi with hmet | ⟨j, b, hj, hb, hasked⟩
  · left
    obtain ⟨body, hbody, hasked⟩ :=
      List.mem_flatMap.mp ((mem_of_mem_foldl_addNew hmet).resolve_left List.not_mem_nil)
    obtain ⟨root, hroot, hplan⟩ := List.mem_filterMap.mp hbody
    exact ⟨root, hroot, body, hplan, Plan.askedIn_of_mem_singletons hasked⟩
  · exact .inr ⟨j, b, hj, hb, Plan.askedIn_of_mem_singletons hasked⟩

/-- The dependencies of an accessor are the positions of the other singletons that its plan asks
for, in a body or not. -/
theorem mem_dependencies (h : run c requests = .ok plan) (hi : plan.singletons[i]? = some a) :
    j ∈ a.dependencies ↔ j ≠ i ∧ ∃ b : Accessor, plan.singletons[j]? = some b ∧
      ∃ p, AskedIn a.plan.tree p ∧ p.same b.provider = true := by
  have hdependencies : plan.dependenciesAt i = a.dependencies := by simp [dependenciesAt, hi]
  rw [← hdependencies, mem_dependenciesAt h]
  refine and_congr_right fun _ => ⟨?_, ?_⟩
  · rintro ⟨a', b, ha', hb, p, hp, hsame⟩
    cases hi.symm.trans ha'
    exact ⟨b, hb, p, Plan.askedIn_of_mem_singletons hp, hsame⟩
  · rintro ⟨b, hb, p, hp, hsame⟩
    obtain ⟨q, hq, hsame'⟩ := Plan.exists_same_singletons hp
    exact ⟨a, b, hi, hb, q, hq, same_iff.mpr ((same_iff.mp hsame').symm.trans (same_iff.mp hsame))⟩

/-- The accessors of a container are exactly those that its plans ask for, in a body or not. -/
structure HasExactAccessors (plan : ContainerPlan) : Prop where
  /-- Each singleton asked for has exactly one accessor. -/
  closed : ∀ body ∈ plan.plans, ∀ p, AskedIn body.tree p →
    ∃! i : Nat, ∃ a : Accessor, plan.singletons[i]? = some a ∧ p.same a.provider = true
  /-- Each accessor is asked for by a root, or by an accessor before it. -/
  minimal : ∀ (i : Nat) (a : Accessor), plan.singletons[i]? = some a →
    (∃ root ∈ plan.roots, ∃ body, root.plan? = some body ∧ AskedIn body.tree a.provider) ∨
      ∃ (j : Nat) (b : Accessor), j < i ∧ plan.singletons[j]? = some b ∧
        AskedIn b.plan.tree a.provider
  /-- The dependencies of an accessor are the positions of the other singletons that its plan asks
  for, each once. -/
  dependencies : ∀ (i : Nat) (a : Accessor), plan.singletons[i]? = some a →
    a.dependencies.Pairwise (· < ·) ∧
      ∀ j, j ∈ a.dependencies ↔ j ≠ i ∧ ∃ b : Accessor, plan.singletons[j]? = some b ∧
        ∃ p, AskedIn a.plan.tree p ∧ p.same b.provider = true
  /-- Different accessors share no name. -/
  names : ∀ (i j : Nat) (a b : Accessor), plan.singletons[i]? = some a →
    plan.singletons[j]? = some b → i ≠ j → a.names.all.Disjoint b.names.all

/-- Planning a container finds exactly the accessors that it asks for. -/
theorem accessors_exact (c : Settings) (requests : List RootRequest) (plan : ContainerPlan)
    (h : run c requests = .ok plan) : plan.HasExactAccessors := by
  obtain ⟨planned, -, -, haccessors, -⟩ := run_ok h
  refine ⟨fun body hbody p hasked => ?closed, fun i a hi => asked_by_earlier h hi,
    fun i a hi => ⟨?ascending, fun j => mem_dependencies h hi⟩, fun i j a b hi hj hne => ?names⟩
  case closed =>
    obtain ⟨i, a, hi, hsame⟩ := exists_accessor h hbody hasked
    refine ⟨i, ⟨a, hi, hsame⟩, ?_⟩
    rintro j ⟨b, hj, hsame'⟩
    exact accessor_inj h hj hi ((same_iff.mp hsame').symm.trans (same_iff.mp hsame))
  case ascending =>
    obtain ⟨before, known, after, known', hplanned⟩ := haccessors.planned hi
    obtain ⟨-, -, -, -, hdependencies⟩ := planAccessorAt_ok hplanned
    rw [hdependencies]
    exact List.pairwise_lt_range.filter _
  case names =>
    obtain ⟨_, _, _, _, hplanned⟩ := haccessors.planned hi
    obtain ⟨_, _, _, _, hplanned'⟩ := haccessors.planned hj
    rw [planAccessorAt_names hplanned, planAccessorAt_names hplanned']
    exact AccessorNames.disjoint (by simpa using hne)

/-- A singleton that asks for another one in the body of a delegate, and for a third one outside. -/
theorem accessors_exact_deferred :
    let s : Ty := .plain "S"
    let t : Ty := .plain "T"
    let u : Ty := .plain "U"
    let r : Ty := .plain "R"
    let needs (tys : List Ty) : List Parameter := tys.map fun ty => ⟨"", 0, ty, false⟩
    let env := ((({} : Declarations).addConstructor (.new s (needs [.delegate [] t false, u]))
        .single {})
      |>.addConstructor (.new t (needs [u])) .single {}
      |>.addConstructor (.new u []) .single {}
      |>.addConstructor (.new r (needs [s])) .resolution {}).build
    ∃ plan, run ⟨env, {}, .never, none⟩ [⟨r, false⟩] = .ok plan ∧
      plan.singletons.map (fun a => (a.provider.ty, a.dependencies)) =
        [(s, [1, 2]), (t, [2]), (u, [])] ∧
      plan.HasExactAccessors := by
  intro s t u r needs env
  have hsummary : (run ⟨env, {}, .never, none⟩ [⟨r, false⟩]).toOption.map (fun plan =>
      plan.singletons.map fun a => (a.provider.ty, a.dependencies)) =
        some [(s, [1, 2]), (t, [2]), (u, [])] := by cbv
  obtain ⟨plan, hplan, hsummary⟩ := Option.map_eq_some_iff.mp hsummary
  have hok := Run.ok_of_toOption hplan
  exact ⟨plan, hok, hsummary, accessors_exact _ _ plan hok⟩

end ContainerPlan

end Wiring
