import Wiring.Check
import Wiring.Proofs.Catalog
import Wiring.Proofs.Run

/-!
# Runs of the check

A check that ends without an error leaves a derivation behind, `Visits`, which says for each request
what was reported there or why the walk went on below it or not. Budgets and cancellation are gone
from it.

* `fault?_some`, `fault?_none` — what is wrong with entering a provider.
* `visit_sound`, `run_sound` — every successful walk has a derivation.
* `Visits.reported_extends` — reports are never taken back.
-/

namespace Wiring.Check

open Run

/-- The state once a provider is entered. -/
def State.entering (s : State) (ctx : Context) (p : Provider) : State :=
  if ctx.env.isNear p then
    { s with entered := (p.identity, (ctx.enter p).isAsync) :: s.entered }
  else s

/-- Whether a provider is a delegate met in its own body. -/
def Context.isInside (ctx : Context) (p : Provider) : Bool :=
  p.isDelegate && ctx.delegates.contains p.identity

/-- The state after a report. -/
def State.reporting (s : State) (d : Diagnostic) : State :=
  { s with reported := s.reported ++ [d] }

/-! ### The parts of a visit -/

theorem checkpoint_ok {c : Settings} {s s' : State} (h : checkpoint c s = .ok () s') : s' = s := by
  unfold checkpoint at h
  rw [get_bind] at h
  split at h
  · exact absurd h throw_ok
  · exact (pure_ok.mp h).2.symm

theorem fault?_none {ctx : Context} {p : Provider} (h : fault? ctx p = none) :
    p.identity ∉ ctx.segment ∧
      (p.isAsync = true → ctx.isAsync = true ∨ p.isDelegate = true) := by
  unfold fault? at h
  by_cases hmem : p.identity ∈ ctx.segment
  · rw [if_pos hmem] at h
    cases h
  · rw [if_neg hmem] at h
    refine ⟨hmem, fun hasync => ?_⟩
    cases hwaits : ctx.isAsync <;> cases hdelegate : p.isDelegate <;>
      simp [hasync, hwaits, hdelegate] at h ⊢

theorem fault?_some {ctx : Context} {p : Provider} {kind : DiagnosticKind}
    (h : fault? ctx p = some kind) :
    p.identity ∈ ctx.segment ∨
      (p.isAsync = true ∧ ctx.isAsync = false ∧ p.isDelegate = false) := by
  unfold fault? at h
  by_cases hmem : p.identity ∈ ctx.segment
  · exact .inl hmem
  · rw [if_neg hmem] at h
    split at h
    · rename_i hasync
      simp only [Bool.and_eq_true, Bool.not_eq_true'] at hasync
      exact .inr ⟨hasync.1.1, hasync.1.2, hasync.2⟩
    · cases h

theorem isFirstVisit_ok {ctx : Context} {p : Provider} {s s' : State} {first : Bool}
    (h : isFirstVisit ctx p s = .ok first s') :
    (ctx.env.isNear p = true ∧ (p.identity, (ctx.enter p).isAsync) ∈ s.entered ∧ first = false ∧
        s' = s) ∨
      (first = !ctx.isInside p ∧ s' = s.entering ctx p) := by
  unfold isFirstVisit at h
  unfold State.entering
  by_cases hnear : ctx.env.isNear p = true
  · have hnear' : (ctx.env.isContainer || (ctx.enter p).env.isContainer) = true := hnear
    simp only [hnear', if_true] at h
    rw [get_bind] at h
    by_cases hmem : (p.identity, (ctx.enter p).isAsync) ∈ s.entered
    · rw [if_pos hmem] at h
      obtain ⟨rfl, rfl⟩ := pure_ok.mp h
      exact .inl ⟨hnear, hmem, rfl, rfl⟩
    · rw [if_neg hmem] at h
      cases h
      exact .inr ⟨rfl, by rw [if_pos hnear]⟩
  · rw [if_neg hnear]
    have hnear' : ¬ (ctx.env.isContainer || (ctx.enter p).env.isContainer) = true := hnear
    simp only [hnear'] at h
    obtain ⟨rfl, rfl⟩ := pure_ok.mp h
    exact .inr ⟨rfl, rfl⟩

theorem reportUnresolved_ok {c : Settings} {env : Environment} {ty : Ty} {s s' : State}
    (h : reportUnresolved c env ty s = .ok () s') :
    (ty ∈ s.unresolved ∧ s' = s) ∨
      ∃ d, s' = { s with unresolved := ty :: s.unresolved }.reporting d := by
  unfold reportUnresolved at h
  rw [get_bind] at h
  by_cases hmem : ty ∈ s.unresolved
  · rw [if_pos hmem] at h
    exact .inl ⟨hmem, (pure_ok.mp h).2.symm⟩
  · rw [if_neg hmem] at h
    right
    cases hresolve : env.resolve ty <;> simp only [hresolve] at h <;> cases h <;> exact ⟨_, rfl⟩

/-! ### Derivations -/

mutual

/-- How a request was followed, with one constructor for each way to end or go on. What is proved of the
check is proved by induction on it. -/
inductive Visits (c : Settings) : Context → Request → State → State → Prop
  | optional {ctx : Context} {r : Request} {s : State} (hprovider : r.provider? = none)
      (hoptional : r.optional = true) : Visits c ctx r s s
  /-- The type was reported as unresolved before. -/
  | repeated {ctx : Context} {r : Request} {s : State} (hprovider : r.provider? = none)
      (hoptional : r.optional = false) (hunresolved : r.ty ∈ s.unresolved) : Visits c ctx r s s
  | unresolved {ctx : Context} {r : Request} {s : State} {d : Diagnostic}
      (hprovider : r.provider? = none) (hoptional : r.optional = false) :
      Visits c ctx r s ({ s with unresolved := r.ty :: s.unresolved }.reporting d)
  | faulty {ctx : Context} {r : Request} {p : Provider} {s : State} {kind : DiagnosticKind}
      {d : Diagnostic} (hprovider : r.provider? = some p) (hfault : fault? ctx p = some kind) :
      Visits c ctx r s (s.reporting d)
  /-- The provider had been entered before. -/
  | before {ctx : Context} {r : Request} {p : Provider} {s : State}
      (hprovider : r.provider? = some p) (hfault : fault? ctx p = none)
      (hnear : ctx.env.isNear p = true)
      (hentered : (p.identity, (ctx.enter p).isAsync) ∈ s.entered) : Visits c ctx r s s
  /-- The provider is a delegate, met in its own body. -/
  | inside {ctx : Context} {r : Request} {p : Provider} {s : State}
      (hprovider : r.provider? = some p) (hfault : fault? ctx p = none)
      (hinside : ctx.isInside p = true) : Visits c ctx r s (s.entering ctx p)
  | entered {ctx : Context} {r : Request} {p : Provider} {s s' : State}
      (hprovider : r.provider? = some p) (hfault : fault? ctx p = none)
      (below : VisitsAll c (ctx.enter p) ((ctx.enter p).env.requests p) (s.entering ctx p) s') :
      Visits c ctx r s s'

/-- How several requests were followed, one after the other. -/
inductive VisitsAll (c : Settings) : Context → List Request → State → State → Prop
  | nil {ctx : Context} {s : State} : VisitsAll c ctx [] s s
  | cons {ctx : Context} {r : Request} {rest : List Request} {s t u : State}
      (head : Visits c ctx r s t) (tail : VisitsAll c ctx rest t u) :
      VisitsAll c ctx (r :: rest) s u

end

theorem VisitsAll.of_each {c : Settings} {budget : Nat} {ctx : Context} {requests : List Request}
    {s s' : State}
    (hvisit : ∀ ctx r s s', visit c budget ctx r s = .ok () s' → Visits c ctx r s s')
    (h : EachOf (fun r s t => visit c budget ctx r s = .ok () t) requests s s') :
    VisitsAll c ctx requests s s' := by
  induction h with
  | nil => exact .nil
  | cons head _ ih => exact .cons (hvisit _ _ _ _ head) ih

/-- Every successful walk has a derivation. The induction is on the budget, which the derivation
forgets. -/
theorem visit_sound {c : Settings} {budget : Nat} {ctx : Context} {r : Request} {s s' : State}
    (h : visit c budget ctx r s = .ok () s') : Visits c ctx r s s' := by
  induction budget generalizing ctx r s s' with
  | zero =>
      unfold visit at h
      obtain ⟨_, t, _, h⟩ := bind_ok.mp h
      exact absurd h throw_ok
  | succ budget ih =>
      unfold visit at h
      obtain ⟨_, t, hcheck, h₁⟩ := bind_ok.mp h
      obtain rfl := checkpoint_ok hcheck
      -- In the order in which the walk decides: whether there is a provider, whether there is something
      -- wrong with it, whether it was entered before.
      cases hprovider : r.provider? with
      | none =>
          simp only [hprovider] at h₁
          cases hoptional : r.optional with
          | true =>
              simp only [hoptional, if_true] at h₁
              obtain ⟨-, rfl⟩ := pure_ok.mp h₁
              exact .optional hprovider hoptional
          | false =>
              simp only [hoptional] at h₁
              rcases reportUnresolved_ok h₁ with ⟨hmem, rfl⟩ | ⟨d, rfl⟩
              · exact .repeated hprovider hoptional hmem
              · exact .unresolved hprovider hoptional
      | some p =>
          simp only [hprovider] at h₁
          cases hfault : fault? ctx p with
          | some kind =>
              simp only [hfault] at h₁
              cases h₁
              exact .faulty hprovider hfault
          | none =>
              simp only [hfault] at h₁
              obtain ⟨first, u, hfirst, h₂⟩ := bind_ok.mp h₁
              rcases isFirstVisit_ok hfirst with ⟨hnear, hentered, rfl, rfl⟩ | ⟨rfl, rfl⟩
              · obtain ⟨-, rfl⟩ := pure_ok.mp h₂
                exact .before hprovider hfault hnear hentered
              · by_cases hinside : ctx.isInside p = true
                · simp only [hinside] at h₂
                  obtain ⟨-, rfl⟩ := pure_ok.mp h₂
                  exact .inside hprovider hfault hinside
                · simp only [hinside] at h₂
                  exact .entered hprovider hfault (.of_each (fun _ _ _ _ => ih) (forM_ok h₂))

/-- A check that ends without an error has a derivation. -/
theorem run_sound {c : Settings} {env : Environment} {isAsync : Bool}
    (h : (run c env isAsync).error? = none) :
    ∃ s, Visits c (.atRoot env isAsync) (env.root.request c.root) ⟨[], [], []⟩ s ∧
      (run c env isAsync).diagnostics = s.reported := by
  unfold run at h ⊢
  cases hrun : (visit c (c.maxDepth + 1) (.atRoot env isAsync)
      ((Context.atRoot env isAsync).env.request c.root)).run ⟨[], [], []⟩ with
  | error e s =>
      simp only [hrun] at h
      cases h
  | ok u s =>
      simp only [hrun]
      exact ⟨s, visit_sound hrun, rfl⟩

/-! ### Reports stay -/

theorem State.entering_reported (s : State) (ctx : Context) (p : Provider) :
    (s.entering ctx p).reported = s.reported := by
  unfold entering
  split <;> rfl

theorem State.entering_unresolved (s : State) (ctx : Context) (p : Provider) :
    (s.entering ctx p).unresolved = s.unresolved := by
  unfold entering
  split <;> rfl

mutual

/-- Reports are never taken back. -/
theorem Visits.reported_extends {c : Settings} {ctx : Context} {r : Request} {s s' : State} :
    Visits c ctx r s s' → s.reported <+: s'.reported
  | .optional _ _ | .repeated _ _ _ | .before _ _ _ _ => List.prefix_rfl
  | .unresolved _ _ | .faulty _ _ => List.prefix_append _ _
  | .inside _ _ _ => ⟨[], by rw [State.entering_reported, List.append_nil]⟩
  | .entered _ _ below => by
      have hbelow := below.reported_extends
      rwa [State.entering_reported] at hbelow

theorem VisitsAll.reported_extends {c : Settings} {ctx : Context} {requests : List Request}
    {s s' : State} : VisitsAll c ctx requests s s' → s.reported <+: s'.reported
  | .nil => List.prefix_rfl
  | .cons head tail => head.reported_extends.trans tail.reported_extends

end

end Wiring.Check
