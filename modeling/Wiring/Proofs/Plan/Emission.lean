import Wiring.Proofs.Plan.Tree

/-!
# How a plan comes about

A plan is laid down step by step: a body is planned in full before the step that holds it, steps are
numbered in the order in which they are made, and at the end a plan that waits is arranged. A plan in
which nothing can wait stays as it was laid down.
`Emission` and `Planned` say just that of a list of steps and of a plan, relative to the
`Surroundings`, that is, what the plans around have laid down before.

* `Emission.sound` — needs never lead out of the surroundings and the steps laid down, and numbers
  are distinct.
* `Emission.arrange_ok` — every scheduler arranges such steps.
* `Planned.tree_spec` — the numbers of all steps in the tree of a plan are distinct.
* `Planned.within` — every plan in the tree came about in the same way, and its surroundings are made
  up of the plans around it.
-/

namespace Wiring

/-- What is there when a plan is begun: the steps and names it may use, and how many bodies are around.
-/
structure Surroundings where
  /-- The steps laid down by the plans around. -/
  steps : List Step
  /-- The variables that no step fills. -/
  named : String → Prop
  /-- How many bodies are around. -/
  depth : Nat

namespace Surroundings

/-- The surroundings and the steps laid down since. -/
def after (A : Surroundings) (emitted : List Step) : Surroundings :=
  { A with steps := A.steps ++ emitted }

/-- The surroundings of the body that a step holds. -/
def inside (A : Surroundings) (carrier : Step) : Surroundings where
  steps := A.steps
  named := fun name => name ∈ carrier.statement.bound (A.depth + 1) ∨ A.named name
  depth := A.depth + 1

/-- The steps around need nothing else, and their numbers are distinct and below `n`. -/
structure Sound (A : Surroundings) (n : Nat) : Prop where
  closed : ∀ s ∈ A.steps, ∀ d ∈ s.needs, d ∈ A.steps
  nodup : (A.steps.map Step.id).Nodup
  below : ∀ s ∈ A.steps, s.id < n

@[simp] theorem after_nil (A : Surroundings) : A.after [] = A := by
  simp [after]

@[simp] theorem after_after (A : Surroundings) (first second : List Step) :
    (A.after first).after second = A.after (first ++ second) := by
  simp [after]

theorem mem_after {A : Surroundings} {emitted : List Step} {s : Step} :
    s ∈ (A.after emitted).steps ↔ s ∈ A.steps ∨ s ∈ emitted := by
  simp [after]

/-- With nothing around, nothing can be wrong. -/
theorem sound_empty (named : String → Prop) (depth n : Nat) : Sound ⟨[], named, depth⟩ n :=
  ⟨by simp, by simp, by simp⟩

theorem Sound.mono {A : Surroundings} {n m : Nat} (h : A.Sound n) (hle : n ≤ m) : A.Sound m :=
  ⟨h.closed, h.nodup, fun s hs => Nat.lt_of_lt_of_le (h.below s hs) hle⟩

theorem Sound.inside {A : Surroundings} {n : Nat} (h : A.Sound n) (carrier : Step) :
    (A.inside carrier).Sound n :=
  ⟨h.closed, h.nodup, h.below⟩

end Surroundings

/-- A step that is made as number `n` finds around it all that it needs and reads. -/
structure Fitting (A : Surroundings) (n : Nat) (step : Step) : Prop where
  id_eq : step.id = n
  needs : ∀ need ∈ step.needs, need ∈ A.steps
  reads : ∀ name ∈ step.statement.reads,
    (∃ need ∈ step.needs, need.Provides name) ∨ A.named name

mutual

/-- Steps laid down one after the other, from one number to another. -/
inductive Emission (scheduler : Scheduler) : Surroundings → Nat → List Step → Nat → Prop
  | nil {A : Surroundings} {n : Nat} : Emission scheduler A n [] n
  | step {A : Surroundings} {lo n : Nat} {emitted : List Step} {step : Step}
      (earlier : Emission scheduler A lo emitted n) (hbody : step.statement.body? = none)
      (hfits : Fitting (A.after emitted) n step) :
      Emission scheduler A lo (emitted ++ [step]) (n + 1)
  /-- A step with a body; what it opens for the body is laid down after the body and before it. -/
  | carrier {A : Surroundings} {lo n m k : Nat} {before opening : List Step} {step : Step}
      {body : Plan} (earlier : Emission scheduler A lo before n)
      (hbody : step.statement.body? = some body)
      (inner : Planned scheduler step.statement.isBodyAsync ((A.after before).inside step) n body m)
      (opened : Emission scheduler (A.after before) m opening k)
      (hfits : Fitting (A.after (before ++ opening)) k step) :
      Emission scheduler A lo (before ++ opening ++ [step]) (k + 1)

/-- A plan whose steps were laid down, and then arranged if waiting is possible in it. -/
inductive Planned (scheduler : Scheduler) : Bool → Surroundings → Nat → Plan → Nat → Prop
  | plan {isAsync : Bool} {A : Surroundings} {lo hi : Nat} {emitted arranged : List Step}
      {target : String} (emission : Emission scheduler A lo emitted hi)
      (harranged : scheduler.Arranges isAsync emitted arranged) :
      Planned scheduler isAsync A lo ⟨arranged, target⟩ hi

end

variable {scheduler : Scheduler} {isAsync : Bool} {A : Surroundings} {lo hi : Nat}
  {emitted : List Step}

/-! ### Numbers and needs -/

mutual

theorem Emission.le {A : Surroundings} {lo hi : Nat} {emitted : List Step} :
    Emission scheduler A lo emitted hi → lo ≤ hi
  | .nil => Nat.le_refl _
  | .step earlier _ _ => Nat.le_succ_of_le earlier.le
  | .carrier earlier _ inner opened _ =>
      Nat.le_succ_of_le (Nat.le_trans earlier.le (Nat.le_trans inner.le opened.le))

theorem Planned.le {isAsync : Bool} {A : Surroundings} {lo hi : Nat} {plan : Plan} :
    Planned scheduler isAsync A lo plan hi → lo ≤ hi
  | .plan emission _ => emission.le

end

/-- One more step keeps the surroundings sound, if it needs only steps that are there and has the next
number. -/
theorem Surroundings.Sound.step {A : Surroundings} {n : Nat} {step : Step} (h : A.Sound n)
    (hfits : Fitting A n step) : (A.after [step]).Sound (n + 1) := by
  refine ⟨fun s hs d hd => ?_, ?_, fun s hs => ?_⟩
  · rcases mem_after.mp hs with hs | hs
    · exact mem_after.mpr (.inl (h.closed s hs d hd))
    · obtain rfl := List.mem_singleton.mp hs
      exact mem_after.mpr (.inl (hfits.needs d hd))
  · have hnew : step.id ∉ A.steps.map Step.id := by
      intro hmem
      obtain ⟨s, hs, hid⟩ := List.mem_map.mp hmem
      have := h.below s hs
      rw [hid, hfits.id_eq] at this
      omega
    simp only [after, List.map_append, List.map_cons, List.map_nil]
    exact List.nodup_append.mpr ⟨h.nodup, List.nodup_singleton _, fun a ha b hb => by
      rintro rfl
      obtain rfl := List.mem_singleton.mp hb
      exact hnew ha⟩
  · rcases mem_after.mp hs with hs | hs
    · exact Nat.lt_succ_of_lt (h.below s hs)
    · obtain rfl := List.mem_singleton.mp hs
      rw [hfits.id_eq]
      omega

/-- Steps that are laid down need only each other and what was around, and have numbers of their
own. -/
theorem Emission.sound {A : Surroundings} {lo hi : Nat} {emitted : List Step} :
    Emission scheduler A lo emitted hi → A.Sound lo → (A.after emitted).Sound hi
  | .nil, hA => by simpa using hA
  | .step earlier _ hfits, hA => by simpa using (earlier.sound hA).step hfits
  | .carrier earlier _ inner opened hfits, hA => by
      have hbefore := (earlier.sound hA).mono inner.le
      have hopening := opened.sound hbefore
      rw [Surroundings.after_after] at hopening
      simpa using hopening.step hfits

theorem Fitting.inOrder {n : Nat} {step : Step} (within : List Nat)
    (h : Fitting (A.after emitted) n step) :
    Plan.inOrder within ((emitted.map Step.id).reverse ++ (A.steps.map Step.id).reverse)
      [step] = true := by
  refine Plan.inOrder_cons.mpr ⟨fun need hneed _ => ?_, rfl⟩
  have := List.mem_map_of_mem (f := Step.id) (h.needs need hneed)
  simpa [Surroundings.after, or_comm] using this

/-- Each step that is laid down finds what it needs around or before it. -/
theorem Emission.inOrder {A : Surroundings} {lo hi : Nat} {emitted : List Step}
    (within : List Nat) : Emission scheduler A lo emitted hi →
      Plan.inOrder within (A.steps.map Step.id).reverse emitted = true
  | .nil => rfl
  | .step earlier _ hfits =>
      Plan.inOrder_append.mpr ⟨earlier.inOrder within, hfits.inOrder within⟩
  | .carrier earlier _ _ opened hfits => by
      refine Plan.inOrder_append.mpr ⟨Plan.inOrder_append.mpr ⟨earlier.inOrder within, ?_⟩,
        hfits.inOrder within⟩
      simpa [Surroundings.after] using opened.inOrder within

/-! ### Arranging -/

/-- Steps in order, save for what is around, are ordered: a number around is none of theirs. -/
theorem Emission.ordered_of_inOrder {steps : List Step} (h : Emission scheduler A lo emitted hi)
    (hA : A.Sound lo) (hperm : steps.Perm emitted)
    (horder : Plan.inOrder (emitted.map Step.id) (A.steps.map Step.id).reverse steps = true) :
    Plan.Ordered steps := by
  intro before step after hsplit need hneed hid
  have hwithin : need.id ∈ emitted.map Step.id := (hperm.map Step.id).subset hid
  have hnodup := (h.sound hA).nodup
  simp only [Surroundings.after, List.map_append] at hnodup
  refine (Plan.inOrder_iff.mp horder before step after hsplit need hneed hwithin).resolve_right ?_
  intro haround
  exact (List.nodup_append.mp hnodup).2.2 need.id (List.mem_reverse.mp haround) need.id hwithin rfl

/-- Every scheduler arranges steps that were laid down, as each needs only steps before it. -/
theorem Emission.arrange_ok (h : Emission scheduler A lo emitted hi) (hA : A.Sound lo) :
    ∃ arranged, scheduler.arrange emitted = .ok arranged ∧ arranged.Perm emitted ∧
      Plan.Ordered arranged := by
  cases scheduler with
  | emission =>
      exact ⟨emitted, rfl, .refl _, h.ordered_of_inOrder hA (.refl _) (h.inOrder _)⟩
  | longestChain =>
      have hsound := h.sound hA
      have hnodup : (emitted.map Step.id).Nodup := by
        have := hsound.nodup
        simp only [Surroundings.after, List.map_append] at this
        exact (List.nodup_append.mp this).2.1
      have hident : Identified emitted :=
        .of_closed (fun s hs => Surroundings.mem_after.mpr (.inr hs)) hsound.closed hsound.nodup
      obtain ⟨arranged, hok, hperm, horder⟩ := Schedule.longestChain_spec hnodup hident
      refine ⟨arranged, hok, hperm, fun before step after hsplit need hneed hid => ?_⟩
      have hwithin : need.id ∈ emitted.map Step.id := (hperm.map Step.id).subset hid
      simpa using Plan.inOrder_iff.mp horder before step after hsplit need hneed hwithin

/-- A plan consists of the steps that were laid down, in an order that their needs allow. -/
theorem Emission.arranged {arranged : List Step} (h : Emission scheduler A lo emitted hi)
    (hA : A.Sound lo) (harranged : scheduler.Arranges isAsync emitted arranged) :
    arranged.Perm emitted ∧ Plan.Ordered arranged := by
  unfold Scheduler.Arranges at harranged
  split at harranged
  · obtain ⟨arranged', hok, hperm, horder⟩ := h.arrange_ok hA
    obtain rfl : arranged = arranged' := Except.ok.inj (harranged.symm.trans hok)
    exact ⟨hperm, horder⟩
  · subst harranged
    exact ⟨.refl _, h.ordered_of_inOrder hA (.refl _) (h.inOrder _)⟩

/-- Steps that nobody arranges stand as they were laid down. -/
theorem Scheduler.Arranges.eq_of_still {arranged : List Step}
    (h : scheduler.Arranges isAsync emitted arranged)
    (hstill : scheduler = .emission ∨ isAsync = false) : arranged = emitted := by
  unfold Arranges at h
  split at h
  next hwaits =>
    obtain rfl | hsync := hstill
    · exact (Except.ok.inj h).symm
    · rw [hsync] at hwaits
      cases hwaits
  next => exact h

/-! ### The tree -/

/-- The numbers of steps are distinct and lie between two bounds. -/
def Numbered (lo hi : Nat) (steps : List Step) : Prop :=
  (steps.map Step.id).Nodup ∧ ∀ s ∈ steps, lo ≤ s.id ∧ s.id < hi

theorem Numbered.nil {n : Nat} : Numbered n n [] := by
  simp [Numbered]

theorem Numbered.single {step : Step} {n : Nat} (h : step.id = n) : Numbered n (n + 1) [step] := by
  simp [Numbered, h]

theorem Numbered.append {lo mid hi : Nat} {first second : List Step} (hfirst : Numbered lo mid first)
    (hsecond : Numbered mid hi second) (hlo : lo ≤ mid) (hhi : mid ≤ hi) :
    Numbered lo hi (first ++ second) := by
  refine ⟨?_, fun s hs => ?_⟩
  · rw [List.map_append]
    refine List.nodup_append.mpr ⟨hfirst.1, hsecond.1, ?_⟩
    rintro a ha b hb rfl
    obtain ⟨s, hs, rfl⟩ := List.mem_map.mp ha
    obtain ⟨t, ht, hid⟩ := List.mem_map.mp hb
    have h₁ := hfirst.2 s hs
    have h₂ := hsecond.2 t ht
    omega
  · rcases List.mem_append.mp hs with hs | hs
    · have := hfirst.2 s hs
      omega
    · have := hsecond.2 s hs
      omega

theorem Numbered.perm {lo hi : Nat} {first second : List Step} (h : Numbered lo hi second)
    (hperm : first.Perm second) : Numbered lo hi first :=
  ⟨(hperm.map Step.id).nodup_iff.mpr h.1, fun s hs => h.2 s (hperm.subset hs)⟩

mutual

/-- The steps laid down and those of the bodies in them have distinct numbers. -/
theorem Emission.tree_spec {A : Surroundings} {lo hi : Nat} {emitted : List Step} :
    Emission scheduler A lo emitted hi → A.Sound lo → Numbered lo hi (treeOf emitted)
  | .nil, _ => .nil
  | .step earlier hbody hfits, hA => by
      rw [treeOf_append, treeOf_singleton, Step.tree, Statement.inner_of_no_body hbody]
      exact (earlier.tree_spec hA).append (.single hfits.id_eq) earlier.le (Nat.le_succ _)
  | @Emission.carrier _ _ _ _ _ k before opening step body earlier hbody inner opened hfits,
      hA => by
      have hsound := earlier.sound hA
      have hbodyTree := inner.tree_spec (hsound.inside step)
      have hopening := opened.tree_spec (hsound.mono inner.le)
      have hall : Numbered lo (k + 1) (treeOf before ++ (body.tree ++ (treeOf opening ++ [step]))) :=
        (earlier.tree_spec hA).append
          (hbodyTree.append (hopening.append (.single hfits.id_eq) opened.le (Nat.le_succ _))
            inner.le (Nat.le_succ_of_le opened.le))
          earlier.le (Nat.le_trans inner.le (Nat.le_succ_of_le opened.le))
      -- In the tree the steps opened stand before the carrier's body, but are numbered after it.
      refine hall.perm ?_
      rw [treeOf_append, treeOf_append, treeOf_singleton, Step.tree, Statement.inner_of_body hbody,
        List.append_assoc]
      refine List.Perm.append_left _ ?_
      rw [List.append_cons]
      exact List.perm_append_comm

/-- All steps in the tree of a plan have distinct numbers. -/
theorem Planned.tree_spec {isAsync : Bool} {A : Surroundings} {lo hi : Nat} {plan : Plan} :
    Planned scheduler isAsync A lo plan hi → A.Sound lo → Numbered lo hi plan.tree
  | .plan emission harranged, hA => by
      rw [Plan.tree_eq]
      exact (emission.tree_spec hA).perm (treeOf_perm (emission.arranged hA harranged).1)

end

/-! ### The plans in the tree -/

/-- One step stands before another in a plan. -/
def Plan.Precedes (plan : Plan) (first second : Step) : Prop :=
  ∃ before after, plan.steps = before ++ second :: after ∧ first ∈ before

/-- Surroundings made up of the plans around. A step of theirs was laid down before the step that holds
the body, and stands before it, unless its plan waits and was arranged. -/
structure Encloses (scheduler : Scheduler) (isAsync : Bool) (A : Surroundings)
    (around : List (Plan × Step)) (B : Surroundings) : Prop where
  steps : ∀ s ∈ B.steps, s ∈ A.steps ∨ ∃ inner plan carrier outer,
    around = inner ++ (plan, carrier) :: outer ∧ s ∈ plan.steps ∧ s.id < carrier.id ∧
      (scheduler = .emission ∨ canWait isAsync outer = false → plan.Precedes s carrier)
  named : ∀ name, B.named name → A.named name ∨ ∃ inner plan carrier outer,
    around = inner ++ (plan, carrier) :: outer ∧
      name ∈ carrier.statement.bound (A.depth + outer.length + 1)
  depth : B.depth = A.depth + around.length

/-- The body of a step that was laid down was planned with some of the steps before it around, which have
the lower numbers. -/
theorem Emission.body {carrier : Step} {body : Plan} {A : Surroundings} {lo hi : Nat}
    {emitted : List Step} : Emission scheduler A lo emitted hi → A.Sound lo → carrier ∈ emitted →
      carrier.statement.body? = some body →
        ∃ before middle after n m, emitted = before ++ middle ++ carrier :: after ∧
          (A.after before).Sound n ∧ n ≤ carrier.id ∧
            Planned scheduler carrier.statement.isBodyAsync ((A.after before).inside carrier) n body m
  | .nil, _, hcarrier, _ => absurd hcarrier List.not_mem_nil
  | @Emission.step _ _ _ _ _ last earlier hnone _, hA, hcarrier, hbody => by
      rcases List.mem_append.mp hcarrier with hmem | hmem
      · obtain ⟨before, middle, after, n, m, rfl, hsound, hle, hplanned⟩ := earlier.body hA hmem hbody
        exact ⟨before, middle, after ++ [last], n, m, by simp, hsound, hle, hplanned⟩
      · obtain rfl := List.mem_singleton.mp hmem
        simp [hnone] at hbody
  | @Emission.carrier _ _ _ n m _ before opening last inside earlier hinside inner opened hfits, hA,
      hcarrier, hbody => by
      have hsound := earlier.sound hA
      simp only [List.mem_append, List.mem_singleton] at hcarrier
      -- The carrier is one of the steps before, one that opens a registry for the last, or the last
      -- itself.
      rcases hcarrier with (hmem | hmem) | rfl
      · obtain ⟨before', middle, after, n', m', rfl, hsound', hle, hplanned⟩ :=
          earlier.body hA hmem hbody
        exact ⟨before', middle, after ++ opening ++ [last], n', m', by simp, hsound', hle, hplanned⟩
      · obtain ⟨before', middle, after, n', m', rfl, hsound', hle, hplanned⟩ :=
          opened.body (hsound.mono inner.le) hmem hbody
        rw [Surroundings.after_after] at hsound' hplanned
        exact ⟨before ++ before', middle, after ++ [last], n', m', by simp, hsound', hle, hplanned⟩
      · obtain rfl : inside = body := Option.some.inj (hinside.symm.trans hbody)
        have hle : n ≤ carrier.id := hfits.id_eq ▸ Nat.le_trans inner.le opened.le
        exact ⟨before, opening, [], n, m, rfl, hsound, hle, inner⟩

theorem Encloses.refl (A : Surroundings) : Encloses scheduler isAsync A [] A :=
  ⟨fun _ h => .inl h, fun _ h => .inl h, rfl⟩

/-- Every plan in the tree came about like the whole, within the plans around it: it was laid down after
some steps of each of them, and may use these. -/
theorem Planned.within {root nested : Plan} {around : List (Plan × Step)}
    (h : Planned scheduler isAsync A lo root hi) (hA : A.Sound lo)
    (hwithin : root.Within around nested) :
    ∃ B lo' hi', Planned scheduler (canWait isAsync around) B lo' nested hi' ∧ B.Sound lo' ∧
      Encloses scheduler isAsync A around B := by
  induction hwithin with
  | root => exact ⟨A, lo, hi, h, hA, .refl A⟩
  | @body around plan body carrier outer hcarrier hbody ih =>
      obtain ⟨B, lo', hi', hplan, hB, hencloses⟩ := ih
      cases hplan with
      | @plan _ _ _ _ emitted arranged target emission harranged =>
          -- The carrier was laid down after some steps that its body may use. They stand before it
          -- still if the plan is not arranged.
          have hperm := (emission.arranged hB harranged).1
          obtain ⟨before, middle, after, n, m, rfl, hsound, hle, hplanned⟩ :=
            emission.body hB (hperm.subset hcarrier) hbody
          refine ⟨_, n, m, hplanned, hsound.inside carrier, ?_, ?_, ?_⟩
          · intro s hs
            rcases Surroundings.mem_after.mp hs with hs | hs
            · refine (hencloses.steps s hs).imp_right ?_
              rintro ⟨inner, plan', carrier', rest, rfl, hs', hlaid⟩
              exact ⟨(_, carrier) :: inner, plan', carrier', rest, rfl, hs', hlaid⟩
            · have hlt : s.id < carrier.id :=
                Nat.lt_of_lt_of_le (hsound.below s (Surroundings.mem_after.mpr (.inr hs))) hle
              refine .inr ⟨[], _, carrier, around, rfl, hperm.symm.subset (by simp [hs]), hlt, ?_⟩
              exact fun hstill =>
                ⟨before ++ middle, after, harranged.eq_of_still hstill, List.mem_append_left _ hs⟩
          · rintro name (hbound | hnamed)
            · refine .inr ⟨[], _, carrier, around, rfl, ?_⟩
              have hdepth : (B.after before).depth = A.depth + around.length := hencloses.depth
              rwa [hdepth] at hbound
            · refine (hencloses.named name hnamed).imp_right ?_
              rintro ⟨inner, plan', carrier', rest, rfl, hbound⟩
              exact ⟨(_, carrier) :: inner, plan', carrier', rest, rfl, hbound⟩
          · show B.depth + 1 = A.depth + (around.length + 1)
            rw [hencloses.depth, Nat.add_assoc]

/-- Where the plan of a tree has nothing around, all that a step needs stands in its plan or in one
around it. -/
theorem Planned.needs_around {root nested : Plan} {around : List (Plan × Step)}
    (h : Planned scheduler isAsync A lo root hi) (hA : A.Sound lo) (hnone : A.steps = [])
    (hwithin : root.Within around nested) {step need : Step} (hstep : step ∈ nested.steps)
    (hneed : need ∈ step.needs) :
    need ∈ nested.steps ∨ ∃ outer ∈ around, need ∈ outer.1.steps := by
  obtain ⟨B, lo', hi', hnested, hB, hencloses⟩ := h.within hA hwithin
  cases hnested with
  | plan emission harranged =>
      obtain ⟨hperm, -⟩ := emission.arranged hB harranged
      have hclosed := (emission.sound hB).closed step
        (Surroundings.mem_after.mpr (.inr (hperm.subset hstep))) need hneed
      rcases Surroundings.mem_after.mp hclosed with houter | hhere
      · rcases hencloses.steps need houter with hmem | ⟨inner, plan, carrier, outer, rfl, hin, -⟩
        · rw [hnone] at hmem
          exact absurd hmem List.not_mem_nil
        · exact .inr ⟨(plan, carrier), List.mem_append_right _ List.mem_cons_self, hin⟩
      · exact .inl (hperm.symm.subset hhere)

/-! ### What a step reads -/

/-- What a step reads was filled by a step that it needs, or has no step. -/
theorem Emission.reads {step : Step} {name : String} {A : Surroundings} {lo hi : Nat}
    {emitted : List Step} : Emission scheduler A lo emitted hi → step ∈ emitted →
      name ∈ step.statement.reads → (∃ need ∈ step.needs, need.Provides name) ∨ A.named name
  | .nil, hmem, _ => absurd hmem List.not_mem_nil
  | .step earlier _ hfits, hmem, hname => by
      rcases List.mem_append.mp hmem with hmem | hmem
      · exact earlier.reads hmem hname
      · obtain rfl := List.mem_singleton.mp hmem
        exact hfits.reads name hname
  | .carrier earlier _ _ opened hfits, hmem, hname => by
      simp only [List.mem_append, List.mem_singleton] at hmem
      rcases hmem with (hmem | hmem) | rfl
      · exact earlier.reads hmem hname
      · exact opened.reads hmem hname
      · exact hfits.reads name hname

/-- A need in the same ordered list stands before the step. -/
theorem Plan.Ordered.mem_before {before after : List Step} {s need : Step}
    (hordered : Plan.Ordered (before ++ s :: after))
    (hnodup : ((before ++ s :: after).map Step.id).Nodup) (hneed : need ∈ s.needs)
    (hmem : need ∈ before ++ s :: after) : need ∈ before := by
  have hid := hordered before s after rfl need hneed (List.mem_map_of_mem hmem)
  obtain ⟨x, hx, hxid⟩ := List.mem_map.mp hid
  obtain rfl : x = need :=
    List.inj_on_of_nodup_map hnodup (List.mem_append_left _ hx) hmem hxid
  exact hx

/-- What a step leads to is the step itself, stands around or stands before it. -/
theorem Plan.Ordered.reaches {steps closed : List Step} (hordered : Plan.Ordered steps)
    (hnodup : (steps.map Step.id).Nodup)
    (hclosed : ∀ s ∈ closed, ∀ d ∈ s.needs, d ∈ closed)
    (hneeds : ∀ s ∈ steps, ∀ d ∈ s.needs, d ∈ closed ∨ d ∈ steps) {s d : Step}
    (h : s.Reaches d) {before after : List Step} (hsplit : steps = before ++ s :: after) :
    d = s ∨ d ∈ closed ∨ d ∈ before := by
  induction h generalizing before after with
  | refl => exact .inl rfl
  | @need s need d hneed tail ih =>
      have hs : s ∈ steps := by simp [hsplit]
      rcases hneeds s hs need hneed with hmem | hmem
      · exact .inr (.inl (tail.mem_of_closed hclosed hmem))
      · subst hsplit
        have hbefore := hordered.mem_before hnodup hneed hmem
        obtain ⟨first, rest, rfl⟩ := List.append_of_mem hbefore
        have hsplit : first ++ need :: rest ++ s :: after = first ++ need :: (rest ++ s :: after) := by
          simp
        rcases ih hsplit with rfl | hd | hd
        · exact .inr (.inr hbefore)
        · exact .inr (.inl hd)
        · exact .inr (.inr (List.mem_append_left _ hd))

/-- In whatever order the needs allow for the steps of a plan, what a step leads to stands before it. -/
theorem Planned.precedes_ordered {plan other : Plan} {x y : Step}
    (h : Planned scheduler isAsync A lo plan hi) (hA : A.Sound lo) (hsame : other.steps.Perm plan.steps)
    (hordered : Plan.Ordered other.steps) (hx : x ∈ plan.steps) (hy : y ∈ plan.steps)
    (hreaches : x.Reaches y) (hne : x ≠ y) : other.Precedes y x := by
  cases h with
  | @plan _ _ _ _ emitted arranged target emission harranged =>
      have hperm := hsame.trans (emission.arranged hA harranged).1
      have hsound := emission.sound hA
      have hnodup := hsound.nodup
      simp only [Surroundings.after, List.map_append] at hnodup
      obtain ⟨-, hnodup, hdisjoint⟩ := List.nodup_append.mp hnodup
      have hneeds : ∀ s ∈ other.steps, ∀ d ∈ s.needs, d ∈ A.steps ∨ d ∈ other.steps := by
        intro s hs d hd
        have hclosed := hsound.closed s (Surroundings.mem_after.mpr (.inr (hperm.subset hs))) d hd
        exact (Surroundings.mem_after.mp hclosed).imp_right fun hd => hperm.symm.subset hd
      obtain ⟨before, after, hsplit⟩ := List.append_of_mem (hsame.symm.subset hx)
      refine ⟨before, after, hsplit, ?_⟩
      rcases hordered.reaches ((hperm.map Step.id).nodup_iff.mpr hnodup) hA.closed hneeds hreaches
        hsplit with rfl | haround | hbefore
      · exact absurd rfl hne
      · exact absurd rfl (hdisjoint y.id (List.mem_map_of_mem haround) y.id
          (List.mem_map_of_mem (hperm.subset (hsame.symm.subset hy))))
      · exact hbefore

/-- In a plan, what a step leads to stands before it. -/
theorem Planned.precedes {plan : Plan} {x y : Step} (h : Planned scheduler isAsync A lo plan hi)
    (hA : A.Sound lo) (hx : x ∈ plan.steps) (hy : y ∈ plan.steps) (hreaches : x.Reaches y)
    (hne : x ≠ y) : plan.Precedes y x := by
  refine h.precedes_ordered hA (.refl _) ?_ hx hy hreaches hne
  cases h with
  | plan emission harranged => exact (emission.arranged hA harranged).2

end Wiring
