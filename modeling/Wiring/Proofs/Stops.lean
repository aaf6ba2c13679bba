import Wiring.Proofs.Check.Run
import Wiring.Proofs.Survey.Run
import Wiring.Survey.Suspension

/-!
# Runs that fail only when they are stopped

A planning run may be stopped: it is cancelled, or what it walks is too deep. Any other error says
that providers and planning disagree (`PlanError.isUnsupported`). A walk never fails in that way.

* `Run.FailsOnly` — a program, started in a state, fails only with errors of some kind.
* `Run.Stops` — it fails only when it is stopped.
* `PlanError.IsLimit` — the run was cancelled, or what it walks is deeper than allowed.
* `Survey.run_limited`, `Check.run_limited` — the walks fail only at their limits.
-/

namespace Wiring

/-- The run was cancelled, or requests are nested more deeply than the given limit. -/
def PlanError.IsLimit (limit : Nat) (e : PlanError) : Prop :=
  e = .cancelled ∨ e = .depthExceeded limit

namespace PlanError.IsLimit

variable {limit : Nat} {e : PlanError}

theorem cancelled : PlanError.cancelled.IsLimit limit := .inl rfl

theorem depthExceeded : (PlanError.depthExceeded limit).IsLimit limit := .inr rfl

theorem not_isUnsupported (h : e.IsLimit limit) : e.isUnsupported = false := by
  rcases h with rfl | rfl <;> rfl

end PlanError.IsLimit

namespace Run

variable {σ α β : Type} {kind wider : PlanError → Prop}

/-- A program, started in a state, fails only with errors of a kind. -/
def FailsOnly (kind : PlanError → Prop) (m : EStateM PlanError σ α) (s : σ) : Prop :=
  ∀ e t, m s = .error e t → kind e

/-- An answer is missing only for errors of a kind. -/
def FailedOnly (kind : PlanError → Prop) (result : Except PlanError α) : Prop :=
  ∀ e, result = .error e → kind e

/-- A program, started in a state, fails only when it is stopped. -/
abbrev Stops (m : EStateM PlanError σ α) (s : σ) : Prop :=
  FailsOnly (fun e => e.isUnsupported = false) m s

/-- An answer is missing only because the run was stopped. -/
abbrev Stopped (result : Except PlanError α) : Prop :=
  FailedOnly (fun e => e.isUnsupported = false) result

namespace FailsOnly

variable {m : EStateM PlanError σ α} {f : α → EStateM PlanError σ β} {s t : σ} {a : α}

theorem mono (h : FailsOnly kind m s) (hwider : ∀ e, kind e → wider e) : FailsOnly wider m s :=
  fun e t herror => hwider e (h e t herror)

theorem of_ok (h : m s = .ok a t) : FailsOnly kind m s := fun e u herror => by
  rw [h] at herror
  cases herror

theorem pure : FailsOnly kind (Pure.pure a : EStateM PlanError σ α) s := of_ok rfl

theorem throw {e : PlanError} (h : kind e) :
    FailsOnly kind (MonadExcept.throw e : EStateM PlanError σ α) s := by
  rintro e' t heq
  cases heq
  exact h

theorem bind (hm : FailsOnly kind m s) (hf : ∀ a t, m s = .ok a t → FailsOnly kind (f a) t) :
    FailsOnly kind (m >>= f) s := by
  intro e u h
  change EStateM.bind m f s = .error e u at h
  unfold EStateM.bind at h
  cases hrun : m s with
  | error e' t =>
      rw [hrun] at h
      cases h
      exact hm _ _ hrun
  | ok a t =>
      rw [hrun] at h
      exact hf a t hrun e u h

theorem get_bind {f : σ → EStateM PlanError σ β} (h : FailsOnly kind (f s) s) :
    FailsOnly kind (get >>= f) s :=
  h

theorem map {f : α → β} (hm : FailsOnly kind m s) : FailsOnly kind (f <$> m) s := by
  rw [← bind_pure_comp]
  exact hm.bind fun _ _ _ => .pure

/-- A program run on each element of a list, where each run keeps the states it has to start in. -/
theorem mapM {f : α → EStateM PlanError σ β} {P : σ → Prop} {l : List α}
    (hf : ∀ a ∈ l, ∀ s, P s → FailsOnly kind (f a) s)
    (hP : ∀ a ∈ l, ∀ s b t, P s → f a s = .ok b t → P t) (hs : P s) :
    FailsOnly kind (l.mapM f) s := by
  induction l generalizing s with
  | nil =>
      rw [List.mapM_nil]
      exact .pure
  | cons a l ih =>
      rw [List.mapM_cons]
      refine (hf a List.mem_cons_self s hs).bind fun b t hb => ?_
      refine (ih (fun a ha => hf a (List.mem_cons_of_mem _ ha))
        (fun a ha => hP a (List.mem_cons_of_mem _ ha)) (hP a List.mem_cons_self s b t hs hb)).bind ?_
      exact fun _ _ _ => .pure

theorem forM {f : α → EStateM PlanError σ Unit} {l : List α}
    (hf : ∀ a ∈ l, ∀ s, FailsOnly kind (f a) s) : FailsOnly kind (l.forM f) s := by
  induction l generalizing s with
  | nil => exact .pure
  | cons a l ih =>
      exact (hf a List.mem_cons_self s).bind fun _ _ _ =>
        ih fun a ha => hf a (List.mem_cons_of_mem _ ha)

end FailsOnly

namespace FailedOnly

theorem mono {result : Except PlanError α} (h : FailedOnly kind result)
    (hwider : ∀ e, kind e → wider e) : FailedOnly wider result :=
  fun e herror => hwider e (h e herror)

theorem bind {x : Except PlanError α} {f : α → Except PlanError β} (hx : FailedOnly kind x)
    (hf : ∀ a, x = .ok a → FailedOnly kind (f a)) : FailedOnly kind (x >>= f) := by
  cases x with
  | error e =>
      intro e' h
      cases h
      exact hx e rfl
  | ok a => exact hf a rfl

theorem ok {a : α} : FailedOnly kind (.ok a : Except PlanError α) := fun _ h => by cases h

theorem error {e : PlanError} (h : kind e) : FailedOnly kind (.error e : Except PlanError α) :=
  fun _ heq => by
    cases heq
    exact h

theorem mapM {f : α → Except PlanError β} {l : List α} (hf : ∀ a ∈ l, FailedOnly kind (f a)) :
    FailedOnly kind (l.mapM f) := by
  induction l with
  | nil =>
      rw [List.mapM_nil]
      exact .ok
  | cons a l ih =>
      rw [List.mapM_cons]
      refine (hf a List.mem_cons_self).bind fun _ _ => ?_
      exact (ih fun a ha => hf a (List.mem_cons_of_mem _ ha)).bind fun _ _ => .ok

end FailedOnly

end Run

open Run

/-! ### Surveys -/

namespace Survey

variable {α : Type} {kind : PlanError → Prop} {maxDepth : Nat} {trigger : Trigger}
  {env : Environment} {p : Provider}

theorem isFirstVisit_failsOnly (ctx : Context) (p : Provider) (s : State α) :
    FailsOnly kind (isFirstVisit ctx p) s := by
  unfold isFirstVisit
  split
  · refine .get_bind ?_
    split
    · exact .pure
    · exact .of_ok rfl
  · exact .of_ok rfl

theorem ask_failsOnly {survey : Survey α}
    (hjudge : ∀ p found, FailedOnly kind (survey.judge p found)) (p : Provider) (s : State α) :
    FailsOnly kind (survey.ask p) s := by
  unfold ask
  refine .get_bind ?_
  cases h : survey.judge p s.found with
  | ok judged => exact .of_ok rfl
  | error e => exact .throw (hjudge p s.found e h)

theorem visit_limited {survey : Survey α}
    (hjudge : ∀ p found, FailedOnly (PlanError.IsLimit survey.maxDepth) (survey.judge p found))
    (budget : Nat) (ctx : Context) (r : Request) (s : State α) :
    FailsOnly (PlanError.IsLimit survey.maxDepth) (survey.visit budget ctx r) s := by
  induction budget generalizing ctx r s with
  | zero =>
      unfold visit
      split
      · exact .throw .cancelled
      · exact .throw .depthExceeded
  | succ budget ih =>
      unfold visit
      by_cases hfired : survey.trigger.hasFired 0 = true
      · simp only [hfired, if_true]
        exact FailsOnly.bind (.throw .cancelled) fun _ _ h => absurd h throw_ok
      simp only [hfired]
      refine .get_bind ?_
      by_cases hsettled : survey.isSettled s.found = true
      · rw [if_pos hsettled]
        exact .pure
      rw [if_neg hsettled]
      cases r.provider? with
      | none => exact .pure
      | some p =>
          refine (ask_failsOnly hjudge p s).bind fun goOn t _ => ?_
          cases goOn with
          | false => exact .pure
          | true =>
              refine (isFirstVisit_failsOnly ctx p t).bind fun first u _ => ?_
              cases first with
              | false => exact .pure
              | true => exact .forM fun r _ => ih (ctx.enter p) r

/-- A survey whose judgements fail only at its limits fails only there. -/
theorem run_limited (survey : Survey α)
    (hjudge : ∀ p found, FailedOnly (PlanError.IsLimit survey.maxDepth) (survey.judge p found))
    (env : Environment) (r : Request) (start : α) :
    FailedOnly (PlanError.IsLimit survey.maxDepth) (survey.run env r start) := by
  intro e h
  unfold run at h
  cases hrun : (survey.visit (survey.maxDepth + 1) ⟨env, []⟩ r).run ⟨start, []⟩ with
  | ok u s =>
      rw [hrun] at h
      cases h
  | error e' s =>
      rw [hrun] at h
      cases h
      exact visit_limited hjudge _ _ _ _ _ _ hrun

theorem touchesRawMemory_limited (trigger : Trigger) (env : Environment) (root : Ty) :
    FailedOnly (PlanError.IsLimit standardDepth) (touchesRawMemory trigger env root) :=
  run_limited (rawMemory trigger) (fun _ _ => .ok) _ _ _

theorem suspendsWith_limited (answers : Answers) :
    FailedOnly (PlanError.IsLimit maxDepth) (suspendsWith maxDepth trigger env p answers) := by
  unfold suspendsWith
  split
  · exact .ok
  · exact FailedOnly.bind
      (run_limited (suspension maxDepth trigger) (fun _ _ => .ok) _ _ _) fun _ _ => .ok

theorem singletonsAhead_limited (answers : Answers) :
    FailedOnly (PlanError.IsLimit maxDepth) (singletonsAhead maxDepth trigger env p answers) := by
  refine run_limited (suspendingSingletons maxDepth trigger env.root)
    (fun q found => ?_) _ _ _
  obtain ⟨found, answers⟩ := found
  unfold suspendingSingletons
  dsimp only
  split
  · exact .ok
  · split
    · exact (suspendsWith_limited answers).bind fun _ _ => .ok
    · exact .ok

end Survey

/-! ### The check -/

namespace Check

variable {kind : PlanError → Prop}

theorem checkpoint_limited (c : Settings) (s : State) :
    FailsOnly (PlanError.IsLimit c.maxDepth) (checkpoint c) s := by
  unfold checkpoint
  refine .get_bind ?_
  split
  · exact .throw .cancelled
  · exact .pure

theorem reportUnresolved_failsOnly (c : Settings) (env : Environment) (ty : Ty) (s : State) :
    FailsOnly kind (reportUnresolved c env ty) s := by
  unfold reportUnresolved
  refine .get_bind ?_
  split
  · exact .pure
  · cases env.resolve ty <;> exact .of_ok rfl

theorem isFirstVisit_failsOnly (ctx : Context) (p : Provider) (s : State) :
    FailsOnly kind (isFirstVisit ctx p) s := by
  unfold isFirstVisit
  dsimp only
  split
  · refine .get_bind ?_
    split
    · exact .pure
    · exact .of_ok rfl
  · exact .of_ok rfl

theorem visit_limited (c : Settings) (budget : Nat) (ctx : Context) (r : Request) (s : State) :
    FailsOnly (PlanError.IsLimit c.maxDepth) (visit c budget ctx r) s := by
  induction budget generalizing ctx r s with
  | zero => exact (checkpoint_limited c s).bind fun _ _ _ => .throw .depthExceeded
  | succ budget ih =>
      unfold visit
      refine (checkpoint_limited c s).bind fun _ t _ => ?_
      cases r.provider? with
      | none =>
          dsimp only
          split
          · exact .pure
          · exact reportUnresolved_failsOnly c ctx.env r.ty t
      | some p =>
          dsimp only
          cases fault? ctx p with
          | some kind => exact .of_ok rfl
          | none =>
              refine (isFirstVisit_failsOnly ctx p t).bind fun first u _ => ?_
              cases first with
              | false => exact .pure
              | true => exact .forM fun r _ => ih (ctx.enter p) r

/-- A check ends early only at its limits. -/
theorem run_limited {c : Settings} {env : Environment} {isAsync : Bool} {e : PlanError}
    (h : (run c env isAsync).error? = some e) : e.IsLimit c.maxDepth := by
  unfold run at h
  dsimp only at h
  split at h
  · cases h
  · rename_i e' s hrun
    cases h
    exact visit_limited _ _ _ _ _ _ _ hrun

end Check

end Wiring
