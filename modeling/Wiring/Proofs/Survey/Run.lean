import Wiring.Proofs.Catalog
import Wiring.Proofs.Run
import Wiring.Survey.Basic

/-!
# Runs of a survey

A survey that ends without an error leaves a derivation behind, `Visits`, which says for each request
why the walk went on below it or not. Budgets and cancellation are gone from it.

* `visit_sound`, `run_sound` — every successful walk has a derivation.
* `Visits.invariant` — what every judgement keeps, a whole walk keeps. A judgement may rely on
  whatever holds at the start and is handed on from a provider to its dependencies.
-/

namespace Wiring.Survey

open Run

variable {α : Type}

/-- The state once a provider is entered. -/
def State.entering (s : State α) (ctx : Context) (p : Provider) : State α :=
  if ctx.env.isNear p then { s with entered := p.identity :: s.entered } else s

/-- Whether a provider is a delegate met in its own body. -/
def Context.isInside (ctx : Context) (p : Provider) : Bool :=
  p.isDelegate && ctx.delegates.contains p.identity

theorem isFirstVisit_ok {ctx : Context} {p : Provider} {s s' : State α} {first : Bool}
    (h : isFirstVisit ctx p s = .ok first s') :
    (ctx.env.isNear p = true ∧ p.identity ∈ s.entered ∧ first = false ∧ s' = s) ∨
      (first = !ctx.isInside p ∧ s' = s.entering ctx p) := by
  unfold isFirstVisit at h
  unfold State.entering
  by_cases hnear : ctx.env.isNear p = true
  · rw [Environment.isNear] at hnear
    simp only [hnear, if_true] at h
    rw [get_bind] at h
    by_cases hmem : p.identity ∈ s.entered
    · rw [if_pos hmem] at h
      obtain ⟨rfl, rfl⟩ := pure_ok.mp h
      exact .inl ⟨hnear, hmem, rfl, rfl⟩
    · rw [if_neg hmem] at h
      cases h
      exact .inr ⟨rfl, by rw [Environment.isNear, if_pos hnear]⟩
  · rw [if_neg hnear]
    rw [Environment.isNear] at hnear
    simp only [hnear] at h
    obtain ⟨rfl, rfl⟩ := pure_ok.mp h
    exact .inr ⟨rfl, rfl⟩

theorem ask_ok {survey : Survey α} {p : Provider} {s s' : State α} {goOn : Bool}
    (h : survey.ask p s = .ok goOn s') :
    ∃ found, survey.judge p s.found = .ok (goOn, found) ∧ s' = { s with found } := by
  unfold ask at h
  rw [get_bind] at h
  cases hjudge : survey.judge p s.found with
  | error e =>
      rw [hjudge] at h
      exact absurd h throw_ok
  | ok judged =>
      rw [hjudge] at h
      cases h
      exact ⟨judged.2, rfl, rfl⟩

/-! ### Derivations -/

mutual

/-- How a request was followed, with one constructor for each way to end or go on. What is proved of
surveys is proved by induction on it. -/
inductive Visits (survey : Survey α) : Context → Request → State α → State α → Prop
  | settled {ctx : Context} {r : Request} {s : State α} (h : survey.isSettled s.found = true) :
      Visits survey ctx r s s
  | absent {ctx : Context} {r : Request} {s : State α} (hprovider : r.provider? = none) :
      Visits survey ctx r s s
  /-- The judgement was not to go on. -/
  | stopped {ctx : Context} {r : Request} {p : Provider} {s : State α} {found : α}
      (hprovider : r.provider? = some p) (hjudge : survey.judge p s.found = .ok (false, found)) :
      Visits survey ctx r s { s with found }
  /-- The provider had been entered before. -/
  | before {ctx : Context} {r : Request} {p : Provider} {s : State α} {found : α}
      (hprovider : r.provider? = some p) (hjudge : survey.judge p s.found = .ok (true, found))
      (hnear : ctx.env.isNear p = true) (hentered : p.identity ∈ s.entered) :
      Visits survey ctx r s { s with found }
  /-- The provider is a delegate, met in its own body. -/
  | inside {ctx : Context} {r : Request} {p : Provider} {s : State α} {found : α}
      (hprovider : r.provider? = some p) (hjudge : survey.judge p s.found = .ok (true, found))
      (hinside : ctx.isInside p = true) :
      Visits survey ctx r s (State.entering { s with found } ctx p)
  | entered {ctx : Context} {r : Request} {p : Provider} {s s' : State α} {found : α}
      (hprovider : r.provider? = some p) (hjudge : survey.judge p s.found = .ok (true, found))
      (below : VisitsAll survey (ctx.enter p) ((ctx.enter p).env.requests p)
        (State.entering { s with found } ctx p) s') :
      Visits survey ctx r s s'

/-- How several requests were followed, one after the other. -/
inductive VisitsAll (survey : Survey α) : Context → List Request → State α → State α → Prop
  | nil {ctx : Context} {s : State α} : VisitsAll survey ctx [] s s
  | cons {ctx : Context} {r : Request} {rest : List Request} {s t u : State α}
      (head : Visits survey ctx r s t) (tail : VisitsAll survey ctx rest t u) :
      VisitsAll survey ctx (r :: rest) s u

end

theorem VisitsAll.of_each {survey : Survey α} {budget : Nat} {ctx : Context}
    {requests : List Request} {s s' : State α}
    (hvisit : ∀ ctx r s s', survey.visit budget ctx r s = .ok () s' → Visits survey ctx r s s')
    (h : EachOf (fun r s t => survey.visit budget ctx r s = .ok () t) requests s s') :
    VisitsAll survey ctx requests s s' := by
  induction h with
  | nil => exact .nil
  | cons head _ ih => exact .cons (hvisit _ _ _ _ head) ih

/-- Every successful walk has a derivation. The induction is on the budget, which the derivation
forgets. -/
theorem visit_sound {survey : Survey α} {budget : Nat} {ctx : Context} {r : Request}
    {s s' : State α} (h : survey.visit budget ctx r s = .ok () s') : Visits survey ctx r s s' := by
  induction budget generalizing ctx r s s' with
  | zero =>
      unfold visit at h
      split at h <;> exact absurd h throw_ok
  | succ budget ih =>
      unfold visit at h
      -- In the order in which the walk decides: the trigger, what is settled, the provider, the
      -- judgement, whether it was entered before.
      by_cases hfired : survey.trigger.hasFired 0 = true
      · simp only [hfired, if_true] at h
        obtain ⟨_, _, hthrow, _⟩ := bind_ok.mp h
        exact absurd hthrow throw_ok
      simp only [hfired] at h
      rw [if_neg Bool.false_ne_true, get_bind] at h
      by_cases hsettled : survey.isSettled s.found = true
      · rw [if_pos hsettled] at h
        obtain ⟨-, rfl⟩ := pure_ok.mp h
        exact .settled hsettled
      rw [if_neg hsettled] at h
      cases hprovider : r.provider? with
      | none =>
          rw [hprovider] at h
          obtain ⟨-, rfl⟩ := pure_ok.mp h
          exact .absent hprovider
      | some p =>
          rw [hprovider] at h
          obtain ⟨goOn, t, hask, h₁⟩ := bind_ok.mp h
          obtain ⟨found, hjudge, rfl⟩ := ask_ok hask
          cases goOn with
          | false =>
              obtain ⟨-, rfl⟩ := pure_ok.mp h₁
              exact .stopped hprovider hjudge
          | true =>
              obtain ⟨first, u, hfirst, h₂⟩ := bind_ok.mp h₁
              rcases isFirstVisit_ok hfirst with ⟨hnear, hentered, rfl, rfl⟩ | ⟨rfl, rfl⟩
              · obtain ⟨-, rfl⟩ := pure_ok.mp h₂
                exact .before hprovider hjudge hnear hentered
              · by_cases hinside : ctx.isInside p = true
                · simp only [hinside] at h₂
                  obtain ⟨-, rfl⟩ := pure_ok.mp h₂
                  exact .inside hprovider hjudge hinside
                · simp only [hinside] at h₂
                  exact .entered hprovider hjudge (.of_each (fun _ _ _ _ => ih) (forM_ok h₂))

theorem run_sound {survey : Survey α} {env : Environment} {r : Request} {start found : α}
    (h : survey.run env r start = .ok found) :
    ∃ entered, Visits survey ⟨env, []⟩ r ⟨start, []⟩ ⟨found, entered⟩ := by
  unfold run at h
  cases hrun : (survey.visit (survey.maxDepth + 1) ⟨env, []⟩ r).run ⟨start, []⟩ with
  | error e s =>
      rw [hrun] at h
      cases h
  | ok u s =>
      rw [hrun] at h
      cases h
      exact ⟨s.entered, visit_sound hrun⟩

/-! ### Invariants -/

/-- A property of requests, made in environments, that is handed on to the dependencies that the
survey goes on to. -/
def HandedOn (survey : Survey α) (P : Environment → Request → Prop) : Prop :=
  ∀ env r p found after, P env r → r.provider? = some p →
    survey.judge p found = .ok (true, after) →
    ∀ below ∈ (env.enter p).requests p, P (env.enter p) below

/-- What judging keeps, as long as a property handed on to dependencies holds. -/
def JudgingKeeps (survey : Survey α) (P : Environment → Request → Prop) (I : α → Prop) : Prop :=
  ∀ env r p found goOn after, P env r → r.provider? = some p → I found →
    survey.judge p found = .ok (goOn, after) → I after

theorem State.entering_found (s : State α) (ctx : Context) (p : Provider) :
    (s.entering ctx p).found = s.found := by
  unfold entering
  split <;> rfl

mutual

/-- What judging keeps, following a request keeps. -/
theorem Visits.invariant {survey : Survey α} {P : Environment → Request → Prop} {I : α → Prop}
    (hP : HandedOn survey P) (hI : JudgingKeeps survey P I) {ctx : Context} {r : Request} {s s' : State α} :
    Visits survey ctx r s s' → P ctx.env r → I s.found → I s'.found
  | .settled _, _, hfound => hfound
  | .absent _, _, hfound => hfound
  | .stopped hprovider hjudge, hr, hfound => hI _ _ _ _ _ _ hr hprovider hfound hjudge
  | .before hprovider hjudge _ _, hr, hfound => hI _ _ _ _ _ _ hr hprovider hfound hjudge
  | .inside hprovider hjudge _, hr, hfound => by
      rw [State.entering_found]
      exact hI _ _ _ _ _ _ hr hprovider hfound hjudge
  | .entered hprovider hjudge below, hr, hfound => by
      refine below.invariant hP hI (hP _ _ _ _ _ hr hprovider hjudge) ?_
      rw [State.entering_found]
      exact hI _ _ _ _ _ _ hr hprovider hfound hjudge

theorem VisitsAll.invariant {survey : Survey α} {P : Environment → Request → Prop} {I : α → Prop}
    (hP : HandedOn survey P) (hI : JudgingKeeps survey P I) {ctx : Context} {requests : List Request}
    {s s' : State α} : VisitsAll survey ctx requests s s' → (∀ r ∈ requests, P ctx.env r) →
      I s.found → I s'.found
  | .nil, _, hfound => hfound
  | .cons head tail, hr, hfound =>
      tail.invariant hP hI (fun r hmem => hr r (List.mem_cons_of_mem _ hmem))
        (head.invariant hP hI (hr _ List.mem_cons_self) hfound)

end

end Wiring.Survey
