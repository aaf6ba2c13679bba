import Mathlib
import Wiring.Declarations
import Wiring.Proofs.Assembly.Direct
import Wiring.Proofs.Container.CreationOrder
import Wiring.Proofs.Container.Reach

/-!
# Singletons in the order of their creation

A singleton is created after the others that its accessor asks for, unless those left to create all ask
for one another and it is the lowest of them: then it goes first, whether what it asks for is needed for
its creation or only in the body of a delegate.

* `ContainerPlan.AsksDirectly` — the plan of an accessor asks for a singleton outside the bodies of
  delegates.
* `ContainerPlan.GoesFirst` — a singleton is created before one it asks for, to break a cycle.
* `ContainerPlan.created_after_asked` — any other is created after all it asks for and released before
  them. Only one that leads to itself directly asks directly for itself.
* `ContainerPlan.created_before_asked`, `ContainerPlan.asks_itself` — both exceptions occur.
-/

namespace Wiring

mutual

theorem Statement.askedIn_of_askedDirectly {q : Provider} :
    (statement : Statement) → q ∈ statement.askedDirectly →
      (∃ name isAsync, statement = .single name q isAsync) ∨ AskedIn statement.inner q
  | .single name p isAsync, h => by
      obtain rfl := List.mem_singleton.mp h
      exact .inl ⟨name, isAsync, rfl⟩
  | .ownedFunction _ _ _ body, h => .inr (body.askedIn_of_askedDirectly h)
  | .delegate .., h | .registry .., h | .owned .., h | .create .., h | .start .., h | .await .., h => by
      cases h

/-- What a plan asks for directly is asked for by one of the steps in its tree. -/
theorem Plan.askedIn_of_askedDirectly {q : Provider} :
    (plan : Plan) → q ∈ plan.askedDirectly → AskedIn plan.tree q
  | ⟨steps, _⟩, h => askedIn_of_askedDirectlyIn steps h

theorem askedIn_of_askedDirectlyIn {q : Provider} :
    (steps : List Step) → q ∈ askedDirectlyIn steps → AskedIn (treeOf steps) q
  | ⟨_, statement, _, _, _⟩ :: rest, h => by
      rcases List.mem_append.mp h with h | h
      · rcases statement.askedIn_of_askedDirectly h with h | h
        · exact ⟨_, List.mem_cons_self, h⟩
        · exact h.mono fun _ hmem => List.mem_cons_of_mem _ (List.mem_append_left _ hmem)
      · exact (askedIn_of_askedDirectlyIn rest h).mono fun _ hmem =>
          List.mem_cons_of_mem _ (List.mem_append_right _ hmem)

end

namespace ContainerPlan

variable {c : Settings} {requests : List RootRequest} {plan : ContainerPlan} {i j : Nat}

/-- The plan of the accessor at one position asks for the singleton at another outside the bodies of
delegates: in its own steps or in the bodies of owned values. -/
def AsksDirectly (plan : ContainerPlan) (i j : Nat) : Prop :=
  ∃ a b, plan.singletons[i]? = some a ∧ plan.singletons[j]? = some b ∧
    ∃ p ∈ a.plan.askedDirectly, p.same b.provider = true

theorem AsksDirectly.asks (h : plan.AsksDirectly i j) : plan.Asks i j := by
  obtain ⟨a, b, hi, hj, p, hp, hsame⟩ := h
  obtain ⟨q, hq, hpq⟩ := Plan.exists_same_singletons (a.plan.askedIn_of_askedDirectly hp)
  exact ⟨a, b, hi, hj, q, hq, same_iff.mpr ((same_iff.mp hpq).symm.trans (same_iff.mp hsame))⟩

/-- A singleton is created before another to break a cycle. It is the lowest of those not created
before it, and every one of these asks for another of them. -/
def GoesFirst (plan : ContainerPlan) (i j : Nat) : Prop :=
  ∃ before after, plan.creationOrder = before ++ i :: after ∧ j ∈ after ∧ (∀ k ∈ after, i < k) ∧
    ∀ k ∈ i :: after, ∃ l ∈ i :: after, l ≠ k ∧ plan.Asks k l

theorem creationOrder_eq (h : run c requests = .ok plan) :
    plan.creationOrder = creationRounds plan.dependenciesAt plan.singletons.length
      (List.range plan.singletons.length) := by
  obtain ⟨planned, -, -, -, horder, -⟩ := run_ok h
  rw [horder, Wiring.creationOrder, List.length_map]
  rfl

/-- Every singleton is created once. -/
theorem creationOrder_perm (h : run c requests = .ok plan) :
    plan.creationOrder.Perm (List.range plan.singletons.length) := by
  rw [creationOrder_eq h]
  exact creationRounds_perm _ (by simp)

/-- Another singleton that is asked for comes first, unless a cycle is broken. -/
theorem before_or_goesFirst (h : run c requests = .ok plan) (hasks : plan.Asks i j) (hne : j ≠ i) :
    [j, i].Sublist plan.creationOrder ∨ plan.GoesFirst i j := by
  have hperm := creationOrder_perm h
  obtain ⟨a, b, hi, hj, -⟩ := id hasks
  have hmem : ∀ {k : Nat} {a : Accessor}, plan.singletons[k]? = some a → k ∈ plan.creationOrder :=
    fun hk => hperm.mem_iff.mpr (List.mem_range.mpr (List.getElem?_eq_some_iff.mp hk).1)
  obtain ⟨before, after, hsplit⟩ := List.append_of_mem (hmem hi)
  have hplace : j ∈ before ∨ j ∈ after := by
    have := hsplit ▸ hmem hj
    simpa [hne] using this
  rcases hplace with hbefore | hafter
  · rw [hsplit]
    exact .inl
      ((List.singleton_sublist.mpr hbefore).append (List.singleton_sublist.mpr List.mem_cons_self))
  · have hdepends : j ∈ plan.dependenciesAt i := (mem_dependenciesAt h).mpr ⟨hne, hasks⟩
    obtain ⟨hlowest, hnone⟩ := (creationRounds_split _ (by simp) List.pairwise_lt_range
      ((creationOrder_eq h).symm.trans hsplit)).resolve_left fun hfree =>
        isFree_iff.mp hfree j hdepends (List.mem_cons_of_mem _ hafter)
    refine .inr ⟨before, after, hsplit, hafter, hlowest, fun k hk => ?_⟩
    obtain ⟨l, hdepends, hl⟩ := isFree_eq_false_iff.mp (hnone k hk)
    obtain ⟨hlk, hasks⟩ := (mem_dependenciesAt h).mp hdepends
    exact ⟨l, hl, hlk, hasks⟩

/-- What an accessor asks for directly its singleton needs directly. -/
theorem needs_of_askedDirectly (h : run c requests = .ok plan)
    (hcoherent : Coherent (Meets c requests)) {a : Accessor} (ha : a ∈ plan.singletons) {p : Provider}
    (hp : p ∈ a.plan.askedDirectly) :
    Place.NeedsDirectly ⟨c.env.root, a.isAsync, Environment.given a.provider⟩ p := by
  have hhosts : c.env.root.catalog.Hosts (Meets c requests) := hosts hcoherent
  have hvouched := vouched_target (c := c) hhosts ((calm hcoherent h).2 a ha).1
  exact planAccessor_asksDirectly hhosts hvouched (accessor_planned h ha) hp

/-- Every singleton is created once, and after the others that its accessor asks for, in a body or not,
unless it goes first to break a cycle; and it is released before what it is created after. Where
providers of one identity are alike, an accessor that asks for its own singleton outside the bodies of
delegates is that of a singleton which leads directly to its own identity. -/
theorem created_after_asked (c : Settings) (requests : List RootRequest) (plan : ContainerPlan)
    (h : run c requests = .ok plan) :
    plan.creationOrder.Perm (List.range plan.singletons.length) ∧
      (∀ i j, plan.Asks i j → j ≠ i →
        [j, i].Sublist plan.creationOrder ∧ [i, j].Sublist plan.creationOrder.reverse ∨
          plan.GoesFirst i j) ∧
      (Coherent (Meets c requests) → ∀ i, plan.AsksDirectly i i →
        ∃ a q, plan.singletons[i]? = some a ∧ q.identity = a.provider.identity ∧
          Place.NeedsDirectly ⟨c.env.root, a.isAsync, Environment.given a.provider⟩ q) := by
  refine ⟨creationOrder_perm h, fun i j hasks hne => ?_, fun hcoherent i hasks => ?_⟩
  · refine (before_or_goesFirst h hasks hne).imp_left fun hbefore => ⟨hbefore, ?_⟩
    simpa using hbefore.reverse
  · obtain ⟨a, b, hi, hi', p, hp, hsame⟩ := hasks
    cases hi.symm.trans hi'
    exact ⟨a, p, hi, same_iff.mp hsame,
      needs_of_askedDirectly h hcoherent (List.mem_of_getElem? hi) hp⟩

/-- For each pair of singletons, whether the accessor of the first asks for the second. -/
def asksTable (plan : ContainerPlan) : List (List Bool) :=
  plan.singletons.map fun a => plan.singletons.map fun b =>
    a.plan.singletons.any fun p => p.same b.provider

theorem asks_iff_table {plan : ContainerPlan} {i j : Nat} :
    plan.Asks i j ↔ (plan.asksTable[i]?).bind (fun row => row[j]?) = some true := by
  unfold Asks asksTable
  cases hi : plan.singletons[i]? with
  | none => simp [hi]
  | some a => cases hj : plan.singletons[j]? <;> simp [hi, hj, List.any_eq_true]

/-- One singleton over another. -/
theorem created_after_asked_chain :
    let s : Ty := .plain "S"
    let t : Ty := .plain "T"
    let r : Ty := .plain "R"
    let needs (tys : List Ty) : List Parameter := tys.map fun ty => ⟨"", 0, ty, false⟩
    let env := ((({} : Declarations).addConstructor (.new s (needs [t])) .single {})
      |>.addConstructor (.new t []) .single {}
      |>.addConstructor (.new r (needs [s])) .resolution {}).build
    ∃ plan, run ⟨env, {}, .never, none⟩ [⟨r, false⟩] = .ok plan ∧ plan.Asks 0 1 ∧
      ¬ plan.GoesFirst 0 1 ∧
      [1, 0].Sublist plan.creationOrder ∧ [0, 1].Sublist plan.creationOrder.reverse ∧
        plan.creationOrder.Perm (List.range plan.singletons.length) := by
  intro s t r needs env
  have hsummary : (run ⟨env, {}, .never, none⟩ [⟨r, false⟩]).toOption.map asksTable =
      some [[false, true], [false, false]] := by cbv
  obtain ⟨plan, hplan, htable⟩ := Option.map_eq_some_iff.mp hsummary
  have hok := Run.ok_of_toOption hplan
  have hasks : plan.Asks 0 1 := asks_iff_table.mpr (by rw [htable]; rfl)
  obtain ⟨hperm, hafter, -⟩ := created_after_asked _ _ _ hok
  -- The second singleton asks for nothing, so there is no cycle.
  have hnot : ¬ plan.GoesFirst 0 1 := by
    rintro ⟨before, after, -, hmem, -, hcycle⟩
    obtain ⟨l, -, -, hl⟩ := hcycle 1 (List.mem_cons_of_mem _ hmem)
    rw [asks_iff_table, htable] at hl
    rcases l with _ | _ | l <;> simp at hl
  obtain ⟨hbefore, hreleased⟩ := (hafter 0 1 hasks (by decide)).resolve_right hnot
  exact ⟨plan, hok, hasks, hnot, hbefore, hreleased, hperm⟩

/-- A singleton that is created before one that its accessor asks for outside any body, and released
after it: the other singleton leads back to the first through a delegate. -/
theorem created_before_asked :
    let s : Ty := .plain "S"
    let t : Ty := .plain "T"
    let r : Ty := .plain "R"
    let needs (tys : List Ty) : List Parameter := tys.map fun ty => ⟨"", 0, ty, false⟩
    let env := ((({} : Declarations).addConstructor (.new s (needs [t])) .single {})
      |>.addConstructor (.new t (needs [.delegate [] s false])) .single {}
      |>.addConstructor (.new r (needs [s])) .resolution {}).build
    ∃ plan, run ⟨env, {}, .never, none⟩ [⟨r, false⟩] = .ok plan ∧
      (∃ a b step name p isAsync, plan.singletons[0]? = some a ∧ plan.singletons[1]? = some b ∧
        step ∈ a.plan.steps ∧ step.statement = .single name p isAsync ∧ p.same b.provider = true) ∧
      ¬ [1, 0].Sublist plan.creationOrder ∧ ¬ [0, 1].Sublist plan.creationOrder.reverse := by
  intro s t r needs env
  have hsummary : (run ⟨env, {}, .never, none⟩ [⟨r, false⟩]).toOption.map (fun plan =>
      (plan.creationOrder, plan.singletons.map fun a => a.plan.steps.map fun step =>
        (step.statement.body?.isNone, plan.singletons.map fun b =>
          step.statement.askedDirectly.any fun p => p.same b.provider))) =
      some ([0, 1], [[(true, [false, true]), (true, [false, false])],
        [(false, [false, false]), (true, [false, false])]]) := by cbv
  obtain ⟨plan, hplan, hsummary⟩ := Option.map_eq_some_iff.mp hsummary
  have hok := Run.ok_of_toOption hplan
  obtain ⟨horder, hsteps⟩ := Prod.mk.inj hsummary
  obtain ⟨a, rest, hsingletons, ha, hrest⟩ := List.map_eq_cons_iff.mp hsteps
  obtain ⟨b, rest, rfl, -, -⟩ := List.map_eq_cons_iff.mp hrest
  obtain ⟨step, steps, hstep, hfirst, -⟩ := List.map_eq_cons_iff.mp ha
  refine ⟨plan, hok, ?_, by rw [horder]; decide, by rw [horder]; decide⟩
  cases hstatement : step.statement with
  | single name p isAsync =>
      simp only [hstatement, hsingletons, List.map_cons, Prod.mk.injEq, List.cons.injEq,
        Statement.askedDirectly, List.any_cons, List.any_nil, Bool.or_false] at hfirst
      exact ⟨a, b, step, name, p, isAsync, by rw [hsingletons]; rfl, by rw [hsingletons]; rfl,
        hstep ▸ List.mem_cons_self, hstatement, hfirst.2.2.1⟩
  | _ => simp [hstatement, hsingletons, Statement.askedDirectly, Statement.body?] at hfirst

/-- A singleton whose accessor asks for it outside the bodies of delegates: it is part of an owned value
that it needs itself. The check met it inside a delegate first. -/
theorem asks_itself :
    let s : Ty := .plain "S"
    let t : Ty := .plain "T"
    let r : Ty := .plain "R"
    let needs (tys : List Ty) : List Parameter := tys.map fun ty => ⟨"", 0, ty, false⟩
    let env := ((({} : Declarations).addConstructor
        (.new s (needs [.delegate [] t false, .owned s false])) .single {})
      |>.addConstructor (.new t (needs [.owned s false])) .single {}
      |>.addConstructor (.new r (needs [s])) .resolution {}).build
    ∃ plan, run ⟨env, {}, .never, none⟩ [⟨r, false⟩] = .ok plan ∧ plan.stubs = [] ∧
      plan.AsksDirectly 0 0 := by
  intro s t r needs env
  have hsummary : (run ⟨env, {}, .never, none⟩ [⟨r, false⟩]).toOption.map (fun plan =>
      (plan.stubs.length, plan.singletons.map fun a =>
        a.plan.askedDirectly.any fun p => p.same a.provider)) = some (0, [true, false]) := by cbv
  obtain ⟨plan, hplan, hsummary⟩ := Option.map_eq_some_iff.mp hsummary
  obtain ⟨hstubs, hasked⟩ := Prod.mk.inj hsummary
  obtain ⟨a, rest, hsingletons, ha, -⟩ := List.map_eq_cons_iff.mp hasked
  obtain ⟨p, hp, hsame⟩ := List.any_eq_true.mp ha
  have hfirst : plan.singletons[0]? = some a := by rw [hsingletons]; rfl
  exact ⟨plan, Run.ok_of_toOption hplan, List.length_eq_zero_iff.mp hstubs, a, a, hfirst, hfirst, p, hp,
    hsame⟩

end ContainerPlan

end Wiring
