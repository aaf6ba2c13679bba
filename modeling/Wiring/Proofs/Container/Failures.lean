import Wiring.Proofs.Assembly.Failures
import Wiring.Proofs.Container.Calm

/-!
# How the planning of a container can fail

The planning of a container fails only where one of its parts does: the check of a root, the survey of
raw memory, the plan of a root or an accessor. As for the assembly, it is said here for errors of any
kind.

* `PassesCheck` — the check of a root ran to its end and reported nothing.
* `planRoot_failedOnly`, `planAccessors_failedOnly` — a root and the accessors, given their parts.
-/

namespace Wiring.ContainerPlan

open Run

variable {kind : PlanError → Prop} {c : Settings} {request : RootRequest}

/-- The check of a root ran to its end and reported nothing. -/
structure PassesCheck (c : Settings) (request : RootRequest) : Prop where
  error : (checked c request).error? = none
  clean : (checked c request).diagnostics = []

/-- A root that passes its check fails for want of a provider, in the survey of raw memory or in its
plan. -/
theorem planRoot_failedOnly (hlimit : ∀ e, e.IsLimit c.config.maxDepth → kind e)
    (hunprovided : PassesCheck c request → c.env.root.lookup request.ty = none →
      kind (.unprovidedRoot request.ty))
    (hsurvey : PassesCheck c request →
      FailedOnly kind (Survey.touchesRawMemory c.trigger c.env request.ty))
    (hplan : PassesCheck c request → ∀ target, c.env.root.lookup request.ty = some target →
      FailedOnly kind (planResolution c.config c.trigger c.env.root request.isAsync target)) :
    FailedOnly kind (planRoot c request) := by
  unfold planRoot
  rw [show Check.run _ c.env request.isAsync = checked c request from rfl]
  cases herror : (checked c request).error? with
  | some e =>
      simp only [herror]
      exact .error (hlimit e (Check.run_limited herror))
  | none =>
      simp only [herror]
      by_cases hclean : (checked c request).diagnostics = []
      · rw [if_pos (List.isEmpty_iff.mpr hclean)]
        have hpasses : PassesCheck c request := ⟨herror, hclean⟩
        cases hlookup : c.env.root.lookup request.ty with
        | none => exact .error (hunprovided hpasses hlookup)
        | some target =>
            exact (hsurvey hpasses).bind fun _ _ => (hplan hpasses target hlookup).bind fun _ _ => .ok
      · rw [if_neg (by rwa [List.isEmpty_iff])]
        exact .ok

/-- An accessor fails in the survey that tells whether it suspends, or in its plan. -/
theorem planAccessorAt_failedOnly {asyncRelease : Bool} {index : Nat} {met : List Provider}
    {answers : Survey.Answers} {p : Provider} (hlimit : ∀ e, e.IsLimit c.config.maxDepth → kind e)
    (hplan : ∀ isAsync answers', Survey.suspendsWith c.config.maxDepth c.trigger c.env p answers =
        .ok (isAsync, answers') →
      FailedOnly kind (planAccessor c.config c.trigger c.env.root asyncRelease isAsync p)) :
    FailedOnly kind (planAccessorAt c asyncRelease met answers index p) := by
  unfold planAccessorAt
  by_cases hfired : c.trigger.hasFired 0 = true
  · simp only [hfired, if_true]
    exact .error (hlimit _ .cancelled)
  · simp only [hfired]
    exact ((Survey.suspendsWith_limited answers).mono hlimit).bind fun found hfound =>
      (hplan found.1 found.2 hfound).bind fun _ _ => .ok

/-- The accessors fail where one of them does, given what is known of the singletons met before it. -/
theorem planAccessors_failedOnly {asyncRelease : Bool}
    {known : List Provider → Survey.Answers → Prop} (hlimit : kind (.nestingExceeded accessorLimit))
    (hplan : ∀ index met answers p, known met answers → p ∈ met →
      FailedOnly kind (planAccessorAt c asyncRelease met answers index p))
    (hkeeps : ∀ index met answers p accessor met' answers', known met answers → p ∈ met →
      planAccessorAt c asyncRelease met answers index p = .ok (accessor, met', answers') →
        known met' answers')
    (limit : Nat) {index : Nat} {met : List Provider} {answers : Survey.Answers}
    (hmet : known met answers) : FailedOnly kind (planAccessors c asyncRelease limit index met answers) := by
  induction limit generalizing index met answers with
  | zero =>
      unfold planAccessors
      cases met[index]? with
      | none => exact .ok
      | some p => exact .error hlimit
  | succ limit ih =>
      unfold planAccessors
      cases hp : met[index]? with
      | none => exact .ok
      | some p =>
          have hmem := List.mem_of_getElem? hp
          refine (hplan index met answers p hmet hmem).bind fun planned hplanned => ?_
          exact (ih (hkeeps _ _ _ _ _ _ _ hmet hmem hplanned)).bind fun _ _ => .ok

end Wiring.ContainerPlan
