import Mathlib.Data.List.Nodup
import Wiring.ContainerPlan
import Wiring.Proofs.Plan.Tree

/-!
# The accessors of a container

Planning goes through the singletons in the order in which they are met; the plan of one accessor may
bring further singletons in.

* `PlansAccessors` — a derivation of the accessors, free of limits and errors.
* `metAfter` — the singletons met in the end, which are distinct.
* `PlansAccessors.spec` — the accessors are theirs, and the positions that one depends on are those of
  the other singletons its plan asks for.
-/

namespace Wiring

/-! ### Singletons met -/

/-- No two providers have one identity. -/
def Distinct (met : List Provider) : Prop := (met.map Provider.identity).Nodup

theorem same_iff {p q : Provider} : p.same q = true ↔ p.identity = q.identity := by
  simp [Provider.same]

theorem addNew_cases (met : List Provider) (p : Provider) :
    (addNew met p = met ∧ ∃ q ∈ met, p.same q = true) ∨
      (addNew met p = met ++ [p] ∧ ∀ q ∈ met, p.identity ≠ q.identity) := by
  unfold addNew
  by_cases h : met.any p.same = true
  · exact .inl ⟨if_pos h, List.any_eq_true.mp h⟩
  · refine .inr ⟨if_neg h, fun q hq heq => h (List.any_eq_true.mpr ⟨q, hq, same_iff.mpr heq⟩)⟩

theorem addNew_extends (met : List Provider) (p : Provider) : met <+: addNew met p := by
  rcases addNew_cases met p with ⟨h, -⟩ | ⟨h, -⟩
  · exact ⟨[], by rw [h, List.append_nil]⟩
  · exact ⟨[p], h.symm⟩

theorem exists_same_addNew (met : List Provider) (p : Provider) :
    ∃ q ∈ addNew met p, p.same q = true := by
  rcases addNew_cases met p with ⟨h, hq⟩ | ⟨h, -⟩ <;> rw [h]
  · exact hq
  · exact ⟨p, by simp, same_iff.mpr rfl⟩

theorem Distinct.nil : Distinct [] := List.nodup_nil

theorem Distinct.addNew {met : List Provider} (h : Distinct met) (p : Provider) :
    Distinct (addNew met p) := by
  rcases addNew_cases met p with ⟨heq, -⟩ | ⟨heq, hnew⟩ <;> rw [heq]
  · exact h
  · unfold Distinct
    rw [List.map_append]
    refine List.nodup_append.mpr ⟨h, List.nodup_singleton _, fun a ha b hb => ?_⟩
    obtain ⟨q, hq, rfl⟩ := List.mem_map.mp ha
    obtain rfl := List.mem_singleton.mp hb
    exact (hnew q hq).symm

theorem foldl_addNew_extends (met asked : List Provider) : met <+: asked.foldl addNew met := by
  induction asked generalizing met with
  | nil => exact List.prefix_rfl
  | cons p rest ih => exact (addNew_extends met p).trans (ih _)

theorem Distinct.foldl_addNew {met : List Provider} (h : Distinct met) (asked : List Provider) :
    Distinct (asked.foldl Wiring.addNew met) := by
  induction asked generalizing met with
  | nil => exact h
  | cons p rest ih => exact ih (h.addNew p)

theorem exists_same_foldl_addNew {met asked : List Provider} {p : Provider} (hp : p ∈ asked) :
    ∃ q ∈ asked.foldl addNew met, p.same q = true := by
  induction asked generalizing met with
  | nil => exact absurd hp List.not_mem_nil
  | cons first rest ih =>
      rcases List.mem_cons.mp hp with rfl | hp
      · obtain ⟨q, hq, hsame⟩ := exists_same_addNew met p
        exact ⟨q, (foldl_addNew_extends _ rest).subset hq, hsame⟩
      · exact ih hp

theorem mem_of_mem_foldl_addNew {met asked : List Provider} {p : Provider}
    (hp : p ∈ asked.foldl addNew met) : p ∈ met ∨ p ∈ asked := by
  induction asked generalizing met with
  | nil => exact .inl hp
  | cons first rest ih =>
      rcases ih hp with hp | hp
      · rcases addNew_cases met first with ⟨heq, -⟩ | ⟨heq, -⟩ <;> rw [heq] at hp
        · exact .inl hp
        · rcases List.mem_append.mp hp with hp | hp
          · exact .inl hp
          · exact .inr (List.mem_cons.mpr (.inl (List.mem_singleton.mp hp)))
      · exact .inr (List.mem_cons_of_mem _ hp)

theorem getElem?_of_extends {met final : List Provider} (h : met <+: final) {i : Nat} {p : Provider}
    (hi : met[i]? = some p) : final[i]? = some p := by
  obtain ⟨rest, rfl⟩ := h
  rwa [List.getElem?_append_left (List.getElem?_eq_some_iff.mp hi).1]

/-- Two positions of distinct providers that are the same are one. -/
theorem Distinct.index_inj {met : List Provider} (h : Distinct met) {i j : Nat} {p q : Provider}
    (hi : met[i]? = some p) (hj : met[j]? = some q) (hsame : p.identity = q.identity) : i = j := by
  have hi' : (met.map Provider.identity)[i]? = some p.identity := by simp [hi]
  have hj' : (met.map Provider.identity)[j]? = some p.identity := by simp [hj, hsame]
  obtain ⟨hlt, -⟩ := List.getElem?_eq_some_iff.mp hi'
  exact (List.getElem?_inj hlt h).mp (hi'.trans hj'.symm)

/-! ### Singletons of a plan -/

/-- One of the steps asks for the singleton. -/
def AskedIn (steps : List Step) (p : Provider) : Prop :=
  ∃ step ∈ steps, ∃ name isAsync, step.statement = .single name p isAsync

theorem AskedIn.mono {steps wider : List Step} {p : Provider} (h : AskedIn steps p)
    (hsub : steps ⊆ wider) : AskedIn wider p :=
  let ⟨step, hstep, hp⟩ := h
  ⟨step, hsub hstep, hp⟩

theorem mem_of_mem_addNew {met : List Provider} {p q : Provider} (h : p ∈ addNew met q) :
    p ∈ met ∨ p = q := by
  have hfold : p ∈ [q].foldl addNew met := h
  simpa using mem_of_mem_foldl_addNew hfold

mutual

theorem Statement.mem_addSingletons {found : List Provider} {p : Provider} :
    (statement : Statement) → p ∈ statement.addSingletons found →
      p ∈ found ∨ (∃ name isAsync, statement = .single name p isAsync) ∨ AskedIn statement.inner p
  | .single name q isAsync, h =>
      (mem_of_mem_addNew h).imp_right fun heq => .inl ⟨name, isAsync, by rw [heq]⟩
  | .delegate _ _ body _, h => (body.mem_addSingletons h).imp_right .inr
  | .ownedFunction _ _ _ body, h => (body.mem_addSingletons h).imp_right .inr
  | .registry .., h | .owned .., h | .create .., h | .start .., h | .await .., h => .inl h

theorem Plan.mem_addSingletons {found : List Provider} {p : Provider} :
    (plan : Plan) → p ∈ plan.addSingletons found → p ∈ found ∨ AskedIn plan.tree p
  | ⟨steps, _⟩, h => mem_addSingletonsOf steps h

theorem mem_addSingletonsOf {found : List Provider} {p : Provider} :
    (steps : List Step) → p ∈ addSingletonsOf found steps → p ∈ found ∨ AskedIn (treeOf steps) p
  | [], h => .inl h
  | ⟨id, statement, release, needs, releasable⟩ :: rest, h => by
      rcases mem_addSingletonsOf rest h with h | h
      · refine (statement.mem_addSingletons h).imp_right fun h => ?_
        rcases h with h | h
        · exact ⟨_, List.mem_cons_self, h⟩
        · exact h.mono fun _ hmem => List.mem_cons_of_mem _ (List.mem_append_left _ hmem)
      · exact .inr (h.mono fun _ hmem => List.mem_cons_of_mem _ (List.mem_append_right _ hmem))

end

/-- A plan asks for its singletons, in a body or not. -/
theorem Plan.askedIn_of_mem_singletons {plan : Plan} {p : Provider} (h : p ∈ plan.singletons) :
    AskedIn plan.tree p :=
  (plan.mem_addSingletons h).resolve_left List.not_mem_nil

mutual

theorem Statement.addSingletons_extends (found : List Provider) :
    (statement : Statement) → found <+: statement.addSingletons found
  | .single _ p _ => addNew_extends found p
  | .delegate _ _ body _ | .ownedFunction _ _ _ body => body.addSingletons_extends found
  | .registry .. | .owned .. | .create .. | .start .. | .await .. => List.prefix_rfl

theorem Plan.addSingletons_extends (found : List Provider) :
    (plan : Plan) → found <+: plan.addSingletons found
  | ⟨steps, _⟩ => addSingletonsOf_extends found steps

theorem addSingletonsOf_extends (found : List Provider) :
    (steps : List Step) → found <+: addSingletonsOf found steps
  | [] => List.prefix_rfl
  | ⟨_, statement, _, _, _⟩ :: rest =>
      (statement.addSingletons_extends found).trans (addSingletonsOf_extends _ rest)

end

mutual

theorem Statement.exists_same_addSingletons (found : List Provider) {p : Provider} :
    (statement : Statement) → AskedIn statement.inner p →
      ∃ q ∈ statement.addSingletons found, p.same q = true
  | .delegate _ _ body _, h | .ownedFunction _ _ _ body, h => body.exists_same_addSingletons found h
  | .single .., ⟨_, hstep, _⟩ | .registry .., ⟨_, hstep, _⟩ | .owned .., ⟨_, hstep, _⟩
  | .create .., ⟨_, hstep, _⟩ | .start .., ⟨_, hstep, _⟩ | .await .., ⟨_, hstep, _⟩ => by
      cases hstep

theorem Plan.exists_same_addSingletons (found : List Provider) {p : Provider} :
    (plan : Plan) → AskedIn plan.tree p → ∃ q ∈ plan.addSingletons found, p.same q = true
  | ⟨steps, _⟩, h => exists_same_addSingletonsOf found steps h

theorem exists_same_addSingletonsOf (found : List Provider) {p : Provider} :
    (steps : List Step) → AskedIn (treeOf steps) p →
      ∃ q ∈ addSingletonsOf found steps, p.same q = true
  | [], ⟨_, hstep, _⟩ => by cases hstep
  | ⟨id, statement, release, needs, releasable⟩ :: rest, ⟨step, hstep, hp⟩ => by
      have hkept : ∀ q ∈ statement.addSingletons found,
          q ∈ addSingletonsOf (statement.addSingletons found) rest :=
        fun q hq => (addSingletonsOf_extends _ rest).subset hq
      rcases List.mem_cons.mp hstep with rfl | hstep
      · obtain ⟨name, isAsync, rfl⟩ := hp
        obtain ⟨q, hq, hsame⟩ := exists_same_addNew found p
        exact ⟨q, hkept q hq, hsame⟩
      · rcases List.mem_append.mp hstep with hstep | hstep
        · obtain ⟨q, hq, hsame⟩ := statement.exists_same_addSingletons found ⟨step, hstep, hp⟩
          exact ⟨q, hkept q hq, hsame⟩
        · exact exists_same_addSingletonsOf _ rest ⟨step, hstep, hp⟩

end

/-- Whatever a plan asks for, in a body or not, is among its singletons. -/
theorem Plan.exists_same_singletons {plan : Plan} {p : Provider} (h : AskedIn plan.tree p) :
    ∃ q ∈ plan.singletons, p.same q = true :=
  plan.exists_same_addSingletons [] h

namespace ContainerPlan

/-- The position of a provider is that of the one provider of its identity. -/
theorem positionOf_eq_some {met : List Provider} (h : Distinct met) {p : Provider} {i : Nat} :
    positionOf met p = some i ↔ ∃ q, met[i]? = some q ∧ p.same q = true := by
  unfold positionOf
  constructor
  · intro hfind
    obtain ⟨hlt, hsame, -⟩ := List.findIdx?_eq_some_iff_getElem.mp hfind
    exact ⟨met[i], List.getElem?_eq_getElem hlt, hsame⟩
  · rintro ⟨q, hq, hsame⟩
    cases hfind : met.findIdx? p.same with
    | none =>
        have hnone := List.findIdx?_eq_none_iff.mp hfind q (List.mem_of_getElem? hq)
        rw [hsame] at hnone
        cases hnone
    | some k =>
        obtain ⟨hlt, hk, -⟩ := List.findIdx?_eq_some_iff_getElem.mp hfind
        rw [h.index_inj (List.getElem?_eq_getElem hlt) hq
          ((same_iff.mp hk).symm.trans (same_iff.mp hsame))]

/-! ### Derivations -/

/-- The positions of the singletons asked for, the singleton's own left out. -/
def dependenciesOf (met : List Provider) (index : Nat) (asked : List Provider) : List Nat :=
  (List.range met.length).filter fun i => i != index && (asked.filterMap (positionOf met)).contains i

theorem mem_dependenciesOf {met asked : List Provider} {index i : Nat} (h : Distinct met) :
    i ∈ dependenciesOf met index asked ↔
      i ≠ index ∧ ∃ q, met[i]? = some q ∧ ∃ p ∈ asked, p.same q = true := by
  have hposition : (∃ p ∈ asked, positionOf met p = some i) ↔
      ∃ q, met[i]? = some q ∧ ∃ p ∈ asked, p.same q = true := by
    simp only [positionOf_eq_some h]
    exact ⟨fun ⟨p, hp, q, hq, hsame⟩ => ⟨q, hq, p, hp, hsame⟩,
      fun ⟨q, hq, p, hp, hsame⟩ => ⟨p, hp, q, hq, hsame⟩⟩
  simp only [dependenciesOf, List.mem_filter, List.mem_range, Bool.and_eq_true, bne_iff_ne,
    List.contains_eq_mem, decide_eq_true_eq, List.mem_filterMap, hposition]
  constructor
  · rintro ⟨-, hne, hq⟩
    exact ⟨hne, hq⟩
  · rintro ⟨hne, q, hq, hsame⟩
    exact ⟨(List.getElem?_eq_some_iff.mp hq).1, hne, q, hq, hsame⟩

variable {c : Settings} {asyncRelease : Bool}

/-- The plan of an accessor, and what it brings in. -/
theorem planAccessorAt_ok {met met' : List Provider} {answers answers' : Survey.Answers} {index : Nat}
    {p : Provider} {accessor : Accessor}
    (h : planAccessorAt c asyncRelease met answers index p = .ok (accessor, met', answers')) :
    Survey.suspendsWith c.config.maxDepth c.trigger c.env p answers =
        .ok (accessor.isAsync, answers') ∧
      planAccessor c.config c.trigger c.env.root asyncRelease accessor.isAsync p = .ok accessor.plan ∧
      met' = accessor.plan.singletons.foldl addNew met ∧ accessor.provider = p ∧
      accessor.dependencies = dependenciesOf met' index accessor.plan.singletons := by
  unfold planAccessorAt at h
  by_cases hfired : c.trigger.hasFired 0 = true
  · simp only [hfired, if_true] at h
    cases h
  · simp only [hfired] at h
    obtain ⟨⟨isAsync, answers₁⟩, hsuspends, h₁⟩ := Run.except_bind_ok.mp h
    obtain ⟨plan, hplan, h₂⟩ := Run.except_bind_ok.mp h₁
    cases h₂
    exact ⟨hsuspends, hplan, rfl, rfl, rfl⟩

/-- How the accessors from a position on were planned, one after the other, with the singletons met and
the answers found by each handed to the next. -/
inductive PlansAccessors (c : Settings) (asyncRelease : Bool) :
    Nat → List Provider → Survey.Answers → List Accessor → Prop
  | done {index : Nat} {met : List Provider} {answers : Survey.Answers} (hnone : met[index]? = none) :
      PlansAccessors c asyncRelease index met answers []
  | next {index : Nat} {met met' : List Provider} {answers answers' : Survey.Answers} {p : Provider}
      {accessor : Accessor} {rest : List Accessor} (hsome : met[index]? = some p)
      (hplanned : planAccessorAt c asyncRelease met answers index p = .ok (accessor, met', answers'))
      (tail : PlansAccessors c asyncRelease (index + 1) met' answers' rest) :
      PlansAccessors c asyncRelease index met answers (accessor :: rest)

theorem planAccessors_sound {limit index : Nat} {met : List Provider} {answers : Survey.Answers}
    {accessors : List Accessor}
    (h : planAccessors c asyncRelease limit index met answers = .ok accessors) :
    PlansAccessors c asyncRelease index met answers accessors := by
  induction limit generalizing index met answers accessors with
  | zero =>
      unfold planAccessors at h
      cases hindex : met[index]? with
      | none =>
          rw [hindex] at h
          cases h
          exact .done hindex
      | some p =>
          rw [hindex] at h
          cases h
  | succ limit ih =>
      unfold planAccessors at h
      cases hindex : met[index]? with
      | none =>
          rw [hindex] at h
          cases h
          exact .done hindex
      | some p =>
          rw [hindex] at h
          obtain ⟨⟨accessor, met', answers'⟩, hplanned, h₁⟩ := Run.except_bind_ok.mp h
          obtain ⟨rest, hrest, h₂⟩ := Run.except_bind_ok.mp h₁
          cases h₂
          exact .next hindex hplanned (ih hrest)

/-- The singletons met once accessors were planned. -/
def metAfter (met : List Provider) (accessors : List Accessor) : List Provider :=
  (accessors.flatMap fun a => a.plan.singletons).foldl addNew met

theorem metAfter_cons (met : List Provider) (a : Accessor) (rest : List Accessor) :
    metAfter met (a :: rest) = metAfter (a.plan.singletons.foldl addNew met) rest := by
  simp [metAfter, List.flatMap_cons, List.foldl_append]

theorem extends_metAfter (met : List Provider) (accessors : List Accessor) :
    met <+: metAfter met accessors :=
  foldl_addNew_extends met _

theorem distinct_metAfter {met : List Provider} (h : Distinct met) (accessors : List Accessor) :
    Distinct (metAfter met accessors) :=
  h.foldl_addNew _

/-- From a position on there is an accessor for each singleton met. -/
theorem PlansAccessors.length_eq {index : Nat} {met : List Provider} {answers : Survey.Answers}
    {accessors : List Accessor} (h : PlansAccessors c asyncRelease index met answers accessors)
    (hindex : index ≤ met.length) : (metAfter met accessors).length = index + accessors.length := by
  induction h with
  | @done index met _ hnone =>
      have := List.getElem?_eq_none_iff.mp hnone
      simp only [metAfter, List.flatMap_nil, List.foldl_nil, List.length_nil]
      omega
  | @next index met met' _ _ _ accessor rest hsome hplanned _ ih =>
      obtain ⟨-, -, hmet', -, -⟩ := planAccessorAt_ok hplanned
      have hlt : index < met.length := (List.getElem?_eq_some_iff.mp hsome).1
      have hgrown : met.length ≤ met'.length := (hmet' ▸ foldl_addNew_extends met _).length_le
      rw [metAfter_cons, ← hmet', ih (Nat.le_trans hlt hgrown), List.length_cons]
      omega

/-- The accessors are those of the singletons met in the end; each depends on the other singletons
that its plan asks for. -/
theorem PlansAccessors.spec {index : Nat} {met : List Provider} {answers : Survey.Answers}
    {accessors : List Accessor} (h : PlansAccessors c asyncRelease index met answers accessors)
    (hmet : Distinct met) {k : Nat} {a : Accessor} (hk : accessors[k]? = some a) :
    (metAfter met accessors)[index + k]? = some a.provider ∧
      ∀ i, i ∈ a.dependencies ↔ i ≠ index + k ∧
        ∃ q, (metAfter met accessors)[i]? = some q ∧ ∃ p ∈ a.plan.singletons, p.same q = true := by
  induction h generalizing k with
  | done _ => simp at hk
  | @next index met met' answers answers' p accessor rest hsome hplanned tail ih =>
      obtain ⟨-, -, hmet', hprovider, hdependencies⟩ := planAccessorAt_ok hplanned
      have hdistinct : Distinct met' := hmet' ▸ hmet.foldl_addNew _
      rw [metAfter_cons, ← hmet']
      -- The first accessor is that of the singleton at the index; the others are those of the run that
      -- goes on from the singletons met after it.
      cases k with
      | succ k =>
          have := ih hdistinct (k := k) (by simpa using hk)
          simpa [Nat.add_assoc, Nat.add_comm 1 k] using this
      | zero =>
          simp only [List.getElem?_cons_zero, Option.some.injEq] at hk
          subst hk
          have hfinal : met' <+: metAfter met' rest := extends_metAfter met' rest
          refine ⟨?_, fun i => ?_⟩
          · rw [hprovider]
            exact getElem?_of_extends ((hmet' ▸ foldl_addNew_extends met _).trans hfinal) hsome
          -- The positions were read among the singletons met so far; those met later are others.
          · rw [hdependencies, mem_dependenciesOf hdistinct]
            refine and_congr_right fun _ => ⟨?_, ?_⟩
            · rintro ⟨q, hq, hasked⟩
              exact ⟨q, getElem?_of_extends hfinal hq, hasked⟩
            · rintro ⟨q, hq, p', hp', hsame⟩
              have hasked : ∃ q' ∈ accessor.plan.singletons.foldl addNew met, p'.same q' = true :=
                exists_same_foldl_addNew hp'
              obtain ⟨q', hq', hsame'⟩ := hasked
              obtain ⟨j, hj⟩ := List.getElem?_of_mem (hmet' ▸ hq')
              have hij : i = j := (distinct_metAfter hdistinct rest).index_inj hq
                (getElem?_of_extends hfinal hj) ((same_iff.mp hsame).symm.trans (same_iff.mp hsame'))
              exact ⟨q', hij ▸ hj, p', hp', hsame'⟩

end ContainerPlan

end Wiring
