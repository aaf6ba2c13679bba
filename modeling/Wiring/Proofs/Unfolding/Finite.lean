import Wiring.Proofs.Unfolding.Basic

/-!
# Unfoldings that end

Where no chain of requests goes on forever, the unfolding of a place is a finite tree and can be
listed. What is said of all places below it can then be computed.

* `Place.unfold` — the places below a place, down to a depth.
* `Place.endsWithin` — nothing lies deeper.
* `Place.mem_unfold` — then every place is listed.
* `Place.IsAcyclic.of_unfold` — and whether something leads to itself can be read off the list.
* `Place.cycle_of_descend` — a cycle of direct dependencies of a given length, read off likewise.
-/

namespace Wiring.Place

/-- The dependencies of the provider at a place. -/
def below (x : Place) : List Place :=
  match x.request.provider? with
  | none => []
  | some p =>
      ((x.env.enter p).requests p).map fun r => ⟨x.env.enter p, p.waits x.isAsync, r⟩

theorem mem_below {x y : Place} : y ∈ x.below ↔ x.Next y := by
  unfold below
  constructor
  · intro h
    split at h
    · cases h
    · rename_i p hp
      obtain ⟨r, hr, rfl⟩ := List.mem_map.mp h
      exact .intro hp hr
  · rintro ⟨hp, hr⟩
    rw [hp]
    exact List.mem_map_of_mem hr

/-- The places below a place, itself first, down to a depth. -/
def unfold : Nat → Place → List Place
  | 0, _ => []
  | depth + 1, x => x :: x.below.flatMap (unfold depth)

/-- Nothing lies deeper. -/
def endsWithin : Nat → Place → Bool
  | 0, _ => false
  | depth + 1, x => x.below.all (endsWithin depth)

theorem leads_of_mem_unfold {depth : Nat} {x y : Place} (h : y ∈ x.unfold depth) : x.Leads y := by
  induction depth generalizing x with
  | zero => cases h
  | succ depth ih =>
      rcases List.mem_cons.mp h with rfl | h
      · exact .refl
      · obtain ⟨z, hz, hy⟩ := List.mem_flatMap.mp h
        exact .head (mem_below.mp hz) (ih hy)

/-- Where the unfolding ends, every place is listed. -/
theorem mem_unfold {depth : Nat} {x y : Place} (hends : x.endsWithin depth = true) :
    y ∈ x.unfold depth ↔ x.Leads y := by
  refine ⟨leads_of_mem_unfold, fun h => ?_⟩
  induction depth generalizing x with
  | zero => cases hends
  | succ depth ih =>
      rcases Relation.ReflTransGen.cases_head h with rfl | ⟨z, hz, hzy⟩
      · exact List.mem_cons_self
      · have hbelow := mem_below.mpr hz
        exact List.mem_cons_of_mem _
          (List.mem_flatMap.mpr ⟨z, hbelow, ih (List.all_eq_true.mp hends z hbelow) hzy⟩)

theorem endsWithin_succ {depth : Nat} {x : Place} (h : x.endsWithin depth = true) :
    x.endsWithin (depth + 1) = true := by
  induction depth generalizing x with
  | zero => cases h
  | succ depth ih =>
      exact List.all_eq_true.mpr fun y hy => ih (List.all_eq_true.mp h y hy)

theorem endsWithin_leads {depth : Nat} {x y : Place} (h : x.endsWithin depth = true)
    (hleads : x.Leads y) : y.endsWithin depth = true := by
  induction hleads with
  | refl => exact h
  | tail _ hstep ih =>
      cases depth with
      | zero => cases ih
      | succ depth => exact endsWithin_succ (List.all_eq_true.mp ih _ (mem_below.mpr hstep))

/-- The identity of the provider at a place. -/
def identity? (x : Place) : Option Provider.Identity :=
  x.request.provider?.map Provider.identity

/-- A provider at a place leads to one of its identity, down to a depth. -/
def repeatsWithin (depth : Nat) (x : Place) : Bool :=
  x.identity?.isSome &&
    (x.below.flatMap (unfold depth)).any fun y => y.identity? == x.identity?

/-- Where the unfolding ends and nothing leads to itself, nothing leads to itself directly. -/
theorem IsAcyclic.of_unfold (depth : Nat) {root : Place} (hends : root.endsWithin depth = true)
    (hrepeats : (root.unfold depth).any (repeatsWithin depth) = false) : root.IsAcyclic := by
  intro x y p q hx hxy hp hq hidentity
  have hxends := endsWithin_leads hends hx
  obtain ⟨z, ⟨-, hxz⟩, hzy⟩ := Relation.TransGen.head'_iff.mp hxy
  have hzy : z.Leads y := Relation.ReflTransGen.mono (fun _ _ hstep => hstep.2) _ _ hzy
  have hlisted : y ∈ x.below.flatMap (unfold depth) :=
    List.mem_flatMap.mpr ⟨z, mem_below.mpr hxz,
      (mem_unfold (endsWithin_leads hxends (.single hxz))).mpr hzy⟩
  refine absurd (List.any_eq_false.mp hrepeats x ((mem_unfold hends).mpr hx)) (not_not.mpr ?_)
  rw [repeatsWithin, Bool.and_eq_true]
  refine ⟨by simp [identity?, hp], List.any_eq_true.mpr ⟨y, hlisted, ?_⟩⟩
  simp [identity?, hp, hq, hidentity]

/-- The places a number of direct dependencies below a place. -/
def descend : Nat → Place → List Place
  | 0, x => [x]
  | steps + 1, x =>
      if x.request.provider?.any Provider.isDelegate then [] else x.below.flatMap (descend steps)

theorem mem_descend_succ {steps : Nat} {x y : Place} :
    y ∈ x.descend (steps + 1) ↔
      ∃ z, (x.Passes (fun p => p.isDelegate = false) ∧ x.Next z) ∧ y ∈ z.descend steps := by
  rw [descend]
  split
  · rename_i hdelegate
    refine ⟨fun h => (by cases h), ?_⟩
    rintro ⟨z, ⟨hpass, -⟩, -⟩
    obtain ⟨p, hp, hp'⟩ := (Option.any_eq_true _ _).mp hdelegate
    exact absurd ((hpass p hp).symm.trans hp') (by simp)
  · rename_i hdelegate
    have hpass : x.Passes fun p => p.isDelegate = false := by
      intro p hp
      rw [hp] at hdelegate
      simpa using hdelegate
    simp only [List.mem_flatMap, mem_below, hpass, true_and]

theorem leadsDirectly_of_mem_descend {steps : Nat} {x y : Place} (h : y ∈ x.descend (steps + 1)) :
    x.LeadsDirectly y := by
  induction steps generalizing x with
  | zero =>
      obtain ⟨z, hstep, hy⟩ := mem_descend_succ.mp h
      obtain rfl := List.mem_singleton.mp hy
      exact .single hstep
  | succ steps ih =>
      obtain ⟨z, hstep, hy⟩ := mem_descend_succ.mp h
      exact .head hstep (ih hy)

/-- A provider that leads directly to one of its identity in a number of steps. -/
theorem cycle_of_descend (steps : Nat) {x : Place} {identity : Provider.Identity}
    (hx : x.identity? = some identity)
    (h : (x.descend (steps + 1)).any (fun y => y.identity? = some identity) = true) :
    ∃ y p q, x.LeadsDirectly y ∧ x.request.provider? = some p ∧ y.request.provider? = some q ∧
      p.identity = identity ∧ q.identity = identity := by
  obtain ⟨y, hy, hidentity⟩ := List.any_eq_true.mp h
  obtain ⟨p, hp, hpidentity⟩ := Option.map_eq_some_iff.mp hx
  obtain ⟨q, hq, hqidentity⟩ := Option.map_eq_some_iff.mp (of_decide_eq_true hidentity)
  exact ⟨y, p, q, leadsDirectly_of_mem_descend hy, hp, hq, hpidentity, hqidentity⟩

instance (x : Place) : Decidable x.IsSound := by
  unfold IsSound
  split <;> infer_instance

end Wiring.Place
