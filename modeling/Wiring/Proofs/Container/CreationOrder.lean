import Mathlib.Data.Set.Finite.List
import Mathlib.Logic.Relation
import Wiring.ContainerPlan

/-!
# The order of creation

`creationOrder` takes, again and again, the lowest position that depends on none of the positions
left, and the lowest of all where each depends on another.

* `creationRounds_perm` — every position comes exactly once.
* `creationRounds_split` — when a position is taken, it depends on none of those left, or each of
  those left depends on another and it is the lowest.
* `creationRounds_before` — without cycles a position comes after everything that it depends on.
* `Respects` — an order in which every position stands after all that it depends on.
* `creationOrder_least` — without cycles the order of creation is the lexicographically least of these.
-/

namespace Wiring

variable {dependencies : Nat → List Nat} {remaining : List Nat} {i : Nat}

/-- One position depends on another. -/
abbrev DependsOn (dependencies : Nat → List Nat) (i j : Nat) : Prop := j ∈ dependencies i

/-- A position that depends on none of the others. -/
abbrev isFree (dependencies : Nat → List Nat) (remaining : List Nat) (i : Nat) : Bool :=
  (dependencies i).all fun d => !remaining.contains d

theorem isFree_iff : isFree dependencies remaining i = true ↔ ∀ d ∈ dependencies i, d ∉ remaining := by
  simp [isFree, List.contains_eq_mem]

theorem isFree_eq_false_iff :
    isFree dependencies remaining i = false ↔ ∃ d ∈ dependencies i, d ∈ remaining := by
  simp [isFree, List.contains_eq_mem]

/-- Only which positions are left matters. -/
theorem isFree_perm {others : List Nat} (h : others.Perm remaining) :
    isFree dependencies others i = isFree dependencies remaining i := by
  simp only [isFree, List.contains_eq_mem, h.mem_iff]

/-- Where there are no cycles, some position left depends on none of the others: they are finitely
many. -/
theorem exists_isFree (hacyclic : ∀ k, ¬ Relation.TransGen (DependsOn dependencies) k k)
    (hi : i ∈ remaining) : ∃ k ∈ remaining, isFree dependencies remaining k = true := by
  let Left := { k // k ∈ remaining }
  let Below (a b : Left) : Prop := Relation.TransGen (DependsOn dependencies) b.1 a.1
  have : Finite Left := (List.finite_toSet remaining).to_subtype
  have : IsTrans Left Below := ⟨fun _ _ _ hab hbc => hbc.trans hab⟩
  have : Std.Irrefl Below := ⟨fun a => hacyclic a.1⟩
  obtain ⟨⟨k, hk⟩, -, hmin⟩ :=
    (Finite.wellFounded_of_trans_of_irrefl Below).has_min Set.univ ⟨⟨i, hi⟩, trivial⟩
  refine ⟨k, hk, isFree_iff.mpr fun d hd hmem => ?_⟩
  exact hmin ⟨d, hmem⟩ trivial (.single hd)

/-- The position taken next: one that is free or, if none is, the first. -/
theorem nextCreated_cases (dependencies : Nat → List Nat) (remaining : List Nat) :
    (remaining = [] ∧ nextCreated dependencies remaining = none) ∨
      ∃ k ∈ remaining, nextCreated dependencies remaining = some k ∧
        (isFree dependencies remaining k = true ∨ (∃ rest, remaining = k :: rest) ∧
          ∀ j ∈ remaining, isFree dependencies remaining j = false) := by
  unfold nextCreated
  cases hfind : remaining.find? (isFree dependencies remaining) with
  | some k =>
      exact .inr ⟨k, List.mem_of_find?_eq_some hfind, rfl, .inl (List.find?_some hfind)⟩
  | none =>
      cases remaining with
      | nil => exact .inl ⟨rfl, rfl⟩
      | cons k rest =>
          refine .inr ⟨k, List.mem_cons_self, rfl, .inr ⟨⟨rest, rfl⟩, fun j hj => ?_⟩⟩
          simpa using List.find?_eq_none.mp hfind j hj

/-- Enough rounds take every remaining position exactly once, as each round takes one. -/
theorem creationRounds_perm (rounds : Nat) (hrounds : remaining.length ≤ rounds) :
    (creationRounds dependencies rounds remaining).Perm remaining := by
  induction rounds generalizing remaining with
  | zero =>
      obtain rfl : remaining = [] := List.length_eq_zero_iff.mp (Nat.le_zero.mp hrounds)
      exact .refl _
  | succ rounds ih =>
      rcases nextCreated_cases dependencies remaining with
        ⟨rfl, hnext⟩ | ⟨k, hk, hnext, -⟩
      · simp [creationRounds, hnext]
      · simp only [creationRounds, hnext]
        have hlength : (remaining.erase k).length ≤ rounds := by
          have := List.length_erase_of_mem hk
          omega
        exact ((ih hlength).cons k).trans (List.perm_cons_erase hk).symm

/-- What is left when a position is taken stands after it. Either the position depends on nothing that
is left, or it is the lowest and each of those left depends on another. -/
theorem creationRounds_split (rounds : Nat) (hrounds : remaining.length ≤ rounds)
    (hsorted : remaining.Pairwise (· < ·)) {before after : List Nat}
    (hsplit : creationRounds dependencies rounds remaining = before ++ i :: after) :
    isFree dependencies (i :: after) i = true ∨
      (∀ k ∈ after, i < k) ∧ ∀ k ∈ i :: after, isFree dependencies (i :: after) k = false := by
  induction rounds generalizing remaining before with
  | zero => simp [creationRounds] at hsplit
  | succ rounds ih =>
      rcases nextCreated_cases dependencies remaining with
        ⟨rfl, hnext⟩ | ⟨k, hk, hnext, htaken⟩
      · simp [creationRounds, hnext] at hsplit
      · simp only [creationRounds, hnext] at hsplit
        have hlength : (remaining.erase k).length ≤ rounds := by
          have := List.length_erase_of_mem hk
          omega
        -- Positions taken earlier leave a shorter list that is sorted still. If this is the position
        -- taken now, then what is left and it are the list, and it was taken for being free or for
        -- being first.
        cases before with
        | cons b before =>
            exact ih hlength (hsorted.sublist List.erase_sublist) (List.cons.inj hsplit).2
        | nil =>
            obtain ⟨rfl, hafter⟩ := List.cons.inj hsplit
            have hleft : (k :: after).Perm remaining := by
              rw [← hafter]
              exact ((creationRounds_perm rounds hlength).cons k).trans (List.perm_cons_erase hk).symm
            simp only [isFree_perm hleft, hleft.mem_iff]
            refine htaken.imp_right fun ⟨⟨rest, hfirst⟩, hnone⟩ => ⟨fun j hj => ?_, hnone⟩
            subst hfirst
            exact (List.pairwise_cons.mp hsorted).1 j ((List.perm_cons k).mp hleft |>.subset hj)

/-- Without cycles every position comes after all that it depends on. -/
theorem creationRounds_before {j : Nat} (rounds : Nat) (hrounds : remaining.length ≤ rounds)
    (hsorted : remaining.Pairwise (· < ·))
    (hacyclic : ∀ k, ¬ Relation.TransGen (DependsOn dependencies) k k)
    (hdepends : j ∈ dependencies i) (hi : i ∈ remaining) (hj : j ∈ remaining) :
    [j, i].Sublist (creationRounds dependencies rounds remaining) := by
  have hperm : (creationRounds dependencies rounds remaining).Perm remaining :=
    creationRounds_perm rounds hrounds
  obtain ⟨before, after, hsplit⟩ := List.append_of_mem (hperm.mem_iff.mpr hi)
  have hfree : isFree dependencies (i :: after) i = true := by
    refine (creationRounds_split rounds hrounds hsorted hsplit).resolve_right fun ⟨_, hnone⟩ => ?_
    obtain ⟨k, hk, hfree⟩ := exists_isFree hacyclic (List.mem_cons_self (a := i) (l := after))
    exact absurd (hnone k hk) (by simp [hfree])
  have hbefore : j ∈ before := by
    have hmem := hsplit ▸ hperm.mem_iff.mpr hj
    exact (List.mem_append.mp hmem).resolve_right (isFree_iff.mp hfree j hdepends)
  rw [hsplit]
  exact (List.singleton_sublist.mpr hbefore).append (List.singleton_sublist.mpr List.mem_cons_self)

/-! ### The least of the orders that respect the dependencies -/

/-- Every listed position stands after all listed ones that it depends on. -/
def Respects (dependencies : Nat → List Nat) (order : List Nat) : Prop :=
  ∀ i ∈ order, ∀ j ∈ order, j ∈ dependencies i → [j, i].Sublist order

variable {order other rest : List Nat}

theorem pair_sublist_of_cons {j k : Nat} (h : [j, i].Sublist (k :: rest)) (hne : j ≠ k) :
    [j, i].Sublist rest := by
  cases h with
  | cons _ h => exact h
  | cons_cons => exact absurd rfl hne

/-- The first position depends on none of the others. -/
theorem Respects.isFree_head (h : Respects dependencies (i :: rest)) (hnodup : (i :: rest).Nodup) :
    isFree dependencies (i :: rest) i = true := by
  rw [isFree_iff]
  intro d hdepends hd
  have hsublist := h i List.mem_cons_self d hd hdepends
  by_cases hne : d = i
  · subst hne
    exact List.nodup_iff_sublist.mp hnodup d hsublist
  · have hmem : i ∈ rest := (pair_sublist_of_cons hsublist hne).subset (by simp)
    exact (List.nodup_cons.mp hnodup).1 hmem

theorem Respects.tail (h : Respects dependencies (i :: rest)) (hnodup : (i :: rest).Nodup) :
    Respects dependencies rest := by
  intro k hk j hj hdepends
  have hne : j ≠ i := fun heq => (List.nodup_cons.mp hnodup).1 (heq ▸ hj)
  exact pair_sublist_of_cons
    (h k (List.mem_cons_of_mem _ hk) j (List.mem_cons_of_mem _ hj) hdepends) hne

/-- Of the positions in ascending order, the free one taken next is the lowest. -/
theorem nextCreated_least (hsorted : remaining.Pairwise (· < ·)) (hi : i ∈ remaining)
    (hfree : isFree dependencies remaining i = true) :
    ∃ k ∈ remaining, k ≤ i ∧ nextCreated dependencies remaining = some k := by
  unfold nextCreated
  cases hfind : remaining.find? (isFree dependencies remaining) with
  | none => exact absurd hfree (List.find?_eq_none.mp hfind i hi)
  | some k =>
      refine ⟨k, List.mem_of_find?_eq_some hfind, ?_, rfl⟩
      obtain ⟨-, before, after, hsplit, hbefore⟩ := List.find?_eq_some_iff_append.mp hfind
      rw [hsplit] at hi hsorted
      have hordered := List.pairwise_append.mp hsorted
      rcases List.mem_append.mp hi with hi | hi
      · have hbound := hbefore i hi
        rw [hfree] at hbound
        cases hbound
      · rcases List.mem_cons.mp hi with rfl | hi
        · exact Nat.le_refl _
        · exact Nat.le_of_lt ((List.pairwise_cons.mp hordered.2.1).1 i hi)

/-- No order that respects the dependencies is below that of the rounds. Its first position is free, so
the rounds take none above it, and what they leave it leaves too. -/
theorem creationRounds_least (rounds : Nat) (hrounds : remaining.length ≤ rounds)
    (hsorted : remaining.Pairwise (· < ·)) (hperm : other.Perm remaining)
    (hother : Respects dependencies other) :
    creationRounds dependencies rounds remaining = other ∨
      List.Lex (· < ·) (creationRounds dependencies rounds remaining) other := by
  induction rounds generalizing remaining other with
  | zero =>
      obtain rfl : remaining = [] := List.length_eq_zero_iff.mp (Nat.le_zero.mp hrounds)
      exact .inl hperm.eq_nil.symm
  | succ rounds ih =>
      -- The other order begins with a position that is free, and the rounds take the least one. If the
      -- two differ, that settles it; if not, the rest respects the dependencies as well.
      cases other with
      | nil =>
          obtain rfl := hperm.symm.eq_nil
          exact .inl rfl
      | cons m rest =>
          have hnodup : (m :: rest).Nodup := hperm.nodup_iff.mpr (hsorted.imp Nat.ne_of_lt)
          have hm : m ∈ remaining := hperm.subset List.mem_cons_self
          have hfree : isFree dependencies remaining m = true := by
            have hhead := isFree_iff.mp (hother.isFree_head hnodup)
            exact isFree_iff.mpr fun d hdepends hd =>
              hhead d hdepends (hperm.symm.subset hd)
          obtain ⟨k, hk, hle, hnext⟩ := nextCreated_least hsorted hm hfree
          simp only [creationRounds, hnext]
          rcases Nat.lt_or_eq_of_le hle with hlt | rfl
          · exact .inr (.rel hlt)
          · have hlength : (remaining.erase k).length ≤ rounds := by
              have := List.length_erase_of_mem hk
              omega
            have hrest : rest.Perm (remaining.erase k) :=
              .cons_inv (hperm.trans (List.perm_cons_erase hk))
            rcases ih hlength (hsorted.sublist List.erase_sublist) hrest (hother.tail hnodup) with
              heq | hlex
            · exact .inl (by rw [heq])
            · exact .inr (.cons hlex)

/-- Singletons are created in an order that holds every position once. Where no singleton leads back
to itself, each comes after all that it depends on, and every other such order is above this one. -/
theorem creationOrder_least (accessors : List Accessor) :
    let dependencies := fun i => ((accessors.map Accessor.dependencies)[i]?).getD []
    let order := creationOrder (accessors.map Accessor.dependencies)
    order.Perm (List.range accessors.length) ∧
      ((∀ i, ¬ Relation.TransGen (DependsOn dependencies) i i) →
        Respects dependencies order ∧
          ∀ other, other.Perm (List.range accessors.length) → Respects dependencies other →
            order = other ∨ List.Lex (· < ·) order other) := by
  intro dependencies order
  have horder : order =
      creationRounds dependencies accessors.length (List.range accessors.length) := by
    simp [order, creationOrder, dependencies]
  have hlength : (List.range accessors.length).length ≤ accessors.length :=
    Nat.le_of_eq List.length_range
  have hperm : order.Perm (List.range accessors.length) := by
    rw [horder]
    exact creationRounds_perm _ hlength
  refine ⟨hperm, fun hacyclic => ⟨fun i hi j hj hdepends => ?_, fun other hother hrespects => ?_⟩⟩
  · rw [horder]
    exact creationRounds_before _ hlength List.pairwise_lt_range hacyclic hdepends (hperm.subset hi)
      (hperm.subset hj)
  · rw [horder]
    exact creationRounds_least _ hlength List.pairwise_lt_range hother hrespects

/-- The first of four singletons depends on the third, and that one and the second on the last. -/
theorem creationOrder_least_four :
    let accessors : List Accessor :=
      [[2], [3], [3], []].map fun dependencies => ⟨default, default, default, false, dependencies⟩
    let dependencies := fun i => ((accessors.map Accessor.dependencies)[i]?).getD []
    (∀ i, ¬ Relation.TransGen (DependsOn dependencies) i i) ∧
      creationOrder (accessors.map Accessor.dependencies) = [3, 1, 2, 0] ∧
      Respects dependencies [3, 1, 2, 0] ∧
      ∀ other, other.Perm (List.range 4) → Respects dependencies other →
        [3, 1, 2, 0] = other ∨ List.Lex (· < ·) [3, 1, 2, 0] other := by
  intro accessors dependencies
  have hlt : ∀ i j, DependsOn dependencies i j → i < j := by
    intro i j h
    rcases i with _ | _ | _ | _ | i <;> simp_all [DependsOn, dependencies, accessors]
  have hltTrans : ∀ {i j}, Relation.TransGen (DependsOn dependencies) i j → i < j := by
    intro i j h
    induction h with
    | single h => exact hlt _ _ h
    | tail _ h ih => exact Nat.lt_trans ih (hlt _ _ h)
  have hacyclic : ∀ i, ¬ Relation.TransGen (DependsOn dependencies) i i := fun i hcycle =>
    Nat.lt_irrefl i (hltTrans hcycle)
  have horder : creationOrder (accessors.map Accessor.dependencies) = [3, 1, 2, 0] := by decide
  obtain ⟨-, hleast⟩ := creationOrder_least accessors
  obtain ⟨hrespects, hlowest⟩ := hleast hacyclic
  rw [horder] at hrespects hlowest
  exact ⟨hacyclic, horder, hrespects, hlowest⟩

end Wiring
