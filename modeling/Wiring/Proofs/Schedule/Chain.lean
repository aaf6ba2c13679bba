import Mathlib.Logic.Basic
import Wiring.Plan.Schedule

/-!
# The longest chain of awaits

When nothing but awaits is left to run, `Schedule.longestAwait` looks for the await to force. This
module says what it finds.

* `Chain isPending n s w m` — going from `s` through pending needs one can reach the await `w`; of
  the awaits on the way, `w` included, there are `m - n`.
* `longestAwait_max` — no chain is longer than the one found.
* `longestAwait_chain` — what is found is the end of a chain, unless it was known before.

Steps nest through their needs, so each statement comes in a pair, on a step and on its needs.
-/

namespace Wiring.Schedule

variable {isPending : Nat → Bool}

/-- A chain of pending needs from a step to an await, counting the awaits on it from `n`. -/
inductive Chain (isPending : Nat → Bool) : Nat → Step → Step → Nat → Prop
  /-- The step is the await. -/
  | here {n : Nat} {s : Step} (hs : s.statement.isAwait = true) : Chain isPending n s s (n + 1)
  /-- The chain goes on from a pending need. -/
  | there {n m : Nat} {s d w : Step} (hd : d ∈ s.needs) (hp : isPending d.id = true)
      (tail : Chain isPending (if s.statement.isAwait then n + 1 else n) d w m) :
      Chain isPending n s w m

namespace Chain

/-- A chain counts the await at its end. -/
theorem lt {n m : Nat} {s w : Step} (h : Chain isPending n s w m) : n < m := by
  induction h with
  | here => exact Nat.lt_succ_self _
  | there _ _ _ ih => split at ih <;> omega

/-- A chain goes on from a pending need of the await at its end. -/
theorem extend {n m k : Nat} {s w d v : Step} (h : Chain isPending n s w m)
    (hd : d ∈ w.needs) (hp : isPending d.id = true) (tail : Chain isPending m d v k) :
    Chain isPending n s v k := by
  induction h with
  | here hs => exact .there hd hp (by simpa [hs] using tail)
  | there hd' hp' _ ih => exact .there hd' hp' (ih hd tail)

end Chain

/-- At least as long as a chain with `m` awaits. -/
def Covers (found : Option (Nat × Nat)) (m : Nat) : Prop :=
  ∃ id k, found = some (id, k) ∧ m ≤ k

/-- The best chain known once an await was passed as the `n`-th. -/
def better (best : Option (Nat × Nat)) (id n : Nat) : Option (Nat × Nat) :=
  if best.all fun found => found.2 < n then some (id, n) else best

/-- Passing an await never forgets a chain. -/
theorem better_covers {best : Option (Nat × Nat)} (id n : Nat) {m : Nat} (h : Covers best m) :
    Covers (better best id n) m := by
  obtain ⟨i, k, rfl, hm⟩ := h
  by_cases hk : k < n
  · exact ⟨id, n, by simp [better, hk], by omega⟩
  · exact ⟨i, k, by simp [better, hk], hm⟩

/-- Passing an await covers the chain that ends there. -/
theorem better_covers_new (best : Option (Nat × Nat)) (id n : Nat) :
    Covers (better best id n) n := by
  cases best with
  | none => exact ⟨id, n, by simp [better], Nat.le_refl n⟩
  | some found =>
      by_cases hk : found.2 < n
      · exact ⟨id, n, by simp [better, hk], Nat.le_refl n⟩
      · exact ⟨found.1, found.2, by simp [better, hk], by omega⟩

/-- Passing an await yields that await, or what was known. -/
theorem better_cases (best : Option (Nat × Nat)) (id n : Nat) :
    better best id n = some (id, n) ∨ better best id n = best := by
  unfold better
  split
  · exact .inl rfl
  · exact .inr rfl

theorem longestAwait_eq (length : Nat) (best : Option (Nat × Nat)) (s : Step) :
    longestAwait isPending length best s =
      if s.statement.isAwait then
        longestAwaitOf isPending (length + 1) (better best s.id (length + 1)) s.needs
      else longestAwaitOf isPending length best s.needs := by
  cases s
  simp only [longestAwait, better]

mutual

/-- The search covers what was known and every chain from its start. -/
theorem longestAwait_covers (s : Step) (length : Nat) (best : Option (Nat × Nat)) :
    (∀ m, Covers best m → Covers (longestAwait isPending length best s) m) ∧
      ∀ w m, Chain isPending length s w m → Covers (longestAwait isPending length best s) m := by
  match s with
  | ⟨id, statement, release, needs, releasable⟩ =>
    rw [longestAwait_eq]
    split
    case isTrue hawait =>
      have hneeds := longestAwaitOf_covers needs (length + 1) (better best id (length + 1))
      refine ⟨fun m hm => hneeds.1 m (better_covers id _ hm), fun w m h => ?_⟩
      cases h with
      | here => exact hneeds.1 _ (better_covers_new best id _)
      | there hd hp tail => exact hneeds.2 _ w m hd hp (by simpa [hawait] using tail)
    case isFalse hawait =>
      have hneeds := longestAwaitOf_covers needs length best
      refine ⟨hneeds.1, fun w m h => ?_⟩
      cases h with
      | here hs => exact absurd hs hawait
      | there hd hp tail => exact hneeds.2 _ w m hd hp (by simpa [hawait] using tail)

/-- The same for the chains that start at one of several steps: none of them is longer than what is
found. -/
theorem longestAwaitOf_covers (steps : List Step) (length : Nat) (best : Option (Nat × Nat)) :
    (∀ m, Covers best m → Covers (longestAwaitOf isPending length best steps) m) ∧
      ∀ d w m, d ∈ steps → isPending d.id = true → Chain isPending length d w m →
        Covers (longestAwaitOf isPending length best steps) m := by
  match steps with
  | [] => exact ⟨fun m hm => by simpa [longestAwaitOf] using hm, by simp⟩
  | step :: rest =>
    rw [longestAwaitOf]
    by_cases hp : isPending step.id = true
    case pos =>
      have hstep := longestAwait_covers step length best
      have hrest := longestAwaitOf_covers rest length (longestAwait isPending length best step)
      simp only [hp, if_true]
      refine ⟨fun m hm => hrest.1 m (hstep.1 m hm), fun d w m hd hpd h => ?_⟩
      rcases List.mem_cons.mp hd with rfl | hd
      · exact hrest.1 m (hstep.2 w m h)
      · exact hrest.2 d w m hd hpd h
    case neg =>
      have hrest := longestAwaitOf_covers rest length best
      simp only [hp]
      refine ⟨hrest.1, fun d w m hd hpd h => ?_⟩
      rcases List.mem_cons.mp hd with rfl | hd
      · exact absurd hpd hp
      · exact hrest.2 d w m hd hpd h

end

mutual

/-- What the search finds was known, or is the end of a chain from its start. -/
theorem longestAwait_chain (s : Step) (length : Nat) (best : Option (Nat × Nat)) :
    longestAwait isPending length best s = best ∨
      ∃ w m, longestAwait isPending length best s = some (w.id, m) ∧
        Chain isPending length s w m := by
  match s with
  | ⟨id, statement, release, needs, releasable⟩ =>
    rw [longestAwait_eq]
    split
    case isTrue hawait =>
      rcases longestAwaitOf_chain needs (length + 1) (better best id (length + 1)) with h | h
      · rcases better_cases best id (length + 1) with hb | hb
        · exact .inr ⟨_, _, h.trans hb, .here hawait⟩
        · exact .inl (h.trans hb)
      · obtain ⟨d, w, m, hd, hp, hfound, hchain⟩ := h
        exact .inr ⟨w, m, hfound, .there hd hp (by simpa [hawait] using hchain)⟩
    case isFalse hawait =>
      rcases longestAwaitOf_chain needs length best with h | h
      · exact .inl h
      · obtain ⟨d, w, m, hd, hp, hfound, hchain⟩ := h
        exact .inr ⟨w, m, hfound, .there hd hp (by simpa [hawait] using hchain)⟩

/-- The same for the chains that start at one of several steps: what is found is the end of one of them,
or what had been found before. -/
theorem longestAwaitOf_chain (steps : List Step) (length : Nat) (best : Option (Nat × Nat)) :
    longestAwaitOf isPending length best steps = best ∨
      ∃ d w m, d ∈ steps ∧ isPending d.id = true ∧
        longestAwaitOf isPending length best steps = some (w.id, m) ∧
          Chain isPending length d w m := by
  match steps with
  | [] => exact .inl (by rw [longestAwaitOf])
  | step :: rest =>
    rw [longestAwaitOf]
    by_cases hp : isPending step.id = true
    case pos =>
      simp only [hp, if_true]
      rcases longestAwaitOf_chain rest length (longestAwait isPending length best step) with h | h
      · rcases longestAwait_chain step length best with hs | ⟨w, m, hs, hchain⟩
        · exact .inl (h.trans hs)
        · exact .inr ⟨step, w, m, List.mem_cons_self, hp, h.trans hs, hchain⟩
      · obtain ⟨d, w, m, hd, hpd, hfound, hchain⟩ := h
        exact .inr ⟨d, w, m, List.mem_cons_of_mem _ hd, hpd, hfound, hchain⟩
    case neg =>
      simp only [hp]
      rcases longestAwaitOf_chain rest length best with h | h
      · exact .inl h
      · obtain ⟨d, w, m, hd, hpd, hfound, hchain⟩ := h
        exact .inr ⟨d, w, m, List.mem_cons_of_mem _ hd, hpd, hfound, hchain⟩

end

/-- From a step with a chain the search finds the end of a chain that no chain exceeds. -/
theorem longestAwait_max {s : Step} (h : ∃ w m, Chain isPending 0 s w m) :
    ∃ w m, longestAwait isPending 0 none s = some (w.id, m) ∧ Chain isPending 0 s w m ∧
      ∀ v k, Chain isPending 0 s v k → k ≤ m := by
  have hcovers : ∀ w m, Chain isPending 0 s w m → Covers (longestAwait isPending 0 none s) m :=
    (longestAwait_covers s 0 none).2
  obtain ⟨w, m, hchain⟩ := h
  have hfinds : longestAwait isPending 0 none s = none ∨
      ∃ v k, longestAwait isPending 0 none s = some (v.id, k) ∧ Chain isPending 0 s v k :=
    longestAwait_chain s 0 none
  rcases hfinds with hnone | ⟨v, k, hfound, hv⟩
  · obtain ⟨id, k, hsome, -⟩ := hcovers w m hchain
    rw [hnone] at hsome
    cases hsome
  · refine ⟨v, k, hfound, hv, fun u l hu => ?_⟩
    obtain ⟨id, k', hsome, hle⟩ := hcovers u l hu
    rw [hfound] at hsome
    cases hsome
    exact hle

end Wiring.Schedule
