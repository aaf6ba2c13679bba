import Mathlib
import Wiring.Proofs.Assembly.Stops
import Wiring.Proofs.Container.Failures

/-!
# What can stop the planning of a container

Where providers of one identity are alike, whatever passes its check can be planned, and so can the
accessors of all singletons met on the way: planning a container fails only when it is stopped.

* `ContainerPlan.supported` — a container has a plan, or the run was stopped.
* `ContainerPlan.unsupported` — providers of one identity that differ mislead the check, and then
  planning fails.
-/

namespace Wiring.ContainerPlan

open Run

variable {c : Settings} {requests : List RootRequest}

/-- A root is planned, unless the run is stopped: what passes the check has a provider, and everything
required below it too. -/
theorem planRoot_stops (hcoherent : Coherent (Meets c requests)) {request : RootRequest}
    (hrequest : request ∈ requests) : Stopped (planRoot c request) := by
  have hroot := fun (h : PassesCheck c request) => vouched_root hcoherent hrequest h.error h.clean
  refine planRoot_failedOnly (fun _ hlimit => hlimit.not_isUnsupported) (fun hpasses hnone => ?_)
    (fun _ => ?_) fun hpasses target hlookup => ?_
  · obtain ⟨target, htarget⟩ := (hroot hpasses).provided rfl
    cases hnone.symm.trans htarget
  · exact (Survey.touchesRawMemory_limited _ _ _).mono fun _ hlimit => hlimit.not_isUnsupported
  · have hhosts : c.env.root.catalog.Hosts (Meets c requests) := hosts hcoherent
    have htarget : Vouched c.env.root.catalog (Meets c requests)
        ⟨c.env.root, request.isAsync, Environment.given target⟩ := (hroot hpasses).given hlookup
    exact planResolution_stops hhosts htarget

/-- The accessor of a singleton that is vouched for is planned, unless the run is stopped. -/
theorem planAccessorAt_stops {among : Provider → Prop} {asyncRelease : Bool} {index : Nat}
    {met : List Provider} {answers : Survey.Answers} {p : Provider}
    (hhosts : c.env.catalog.Hosts among) (hmet : Trusted c among met answers) (hp : p ∈ met) :
    Stopped (planAccessorAt c asyncRelease met answers index p) := by
  refine planAccessorAt_failedOnly (fun _ hlimit => hlimit.not_isUnsupported) fun isAsync _ hfound => ?_
  have hvouched := (hmet.suspendsWith hhosts hp hfound).1
  have hroot : c.env.root.catalog.Hosts among := hhosts
  exact planAccessor_stops hroot rfl (vouched_target hhosts hvouched)

/-- The accessors are planned one by one, and each leaves the singletons met vouched for. -/
theorem planAccessors_stops {among : Provider → Prop} {asyncRelease : Bool}
    (hhosts : c.env.catalog.Hosts among) (limit : Nat) {index : Nat} {met : List Provider}
    {answers : Survey.Answers} (hmet : Trusted c among met answers) :
    Stopped (planAccessors c asyncRelease limit index met answers) := by
  refine planAccessors_failedOnly (by rfl)
    (fun _ _ _ _ hmet hp => planAccessorAt_stops hhosts hmet hp)
    (fun _ _ _ _ _ _ _ hmet hp hplanned => ?_) limit hmet
  exact (planAccessorAt_calm hhosts hmet hp hplanned).2.2

theorem run_stops (hcoherent : Coherent (Meets c requests)) : Stopped (run c requests) := by
  unfold run
  refine FailedOnly.bind (FailedOnly.mapM fun _ => planRoot_stops hcoherent) fun planned hplanned => ?_
  obtain ⟨-, htrusted⟩ := trusted_roots hcoherent hplanned
  rw [List.foldl_flatMap] at htrusted
  exact (planAccessors_stops (hosts hcoherent) _ htrusted).bind fun _ _ => .ok

/-- A container whose providers of one identity are alike has a plan, unless the run was cancelled, a
walk went deeper than allowed, or there was no room for what would be planned. -/
theorem supported (c : Settings) (requests : List RootRequest)
    (hcoherent : Coherent (Meets c requests)) :
    (∃ plan, run c requests = .ok plan) ∨ run c requests = .error .cancelled ∨
      ∃ limit, run c requests = .error (.depthExceeded limit) ∨
        run c requests = .error (.nestingExceeded limit) := by
  cases h : run c requests with
  | ok plan => exact .inl ⟨plan, rfl⟩
  | error e =>
      have hstopped := run_stops hcoherent e h
      cases e with
      | cancelled => exact .inr (.inl rfl)
      | depthExceeded limit => exact .inr (.inr ⟨limit, .inl rfl⟩)
      | nestingExceeded limit => exact .inr (.inr ⟨limit, .inr rfl⟩)
      | _ => cases hstopped

/-- An asynchronous root over a singleton that suspends, with a delegate that needs it too. -/
theorem supported_hoisted :
    let a : Ty := .plain "A"
    let b : Ty := .plain "B"
    let r : Ty := .plain "R"
    let needs (tys : List Ty) : List Parameter := tys.map fun ty => ⟨"", 0, ty, false⟩
    let env := ((({} : Declarations).addConstructor (.new a []) .single { isAsync := true })
      |>.addConstructor (.new b (needs [a])) .resolution {}
      |>.addConstructor (.new r (needs [a, .delegate [] b true])) .resolution {}).build
    Coherent (Meets ⟨env, {}, .never, none⟩ [⟨r, true⟩]) ∧
      ∃ plan, run ⟨env, {}, .never, none⟩ [⟨r, true⟩] = .ok plan ∧ plan.stubs = [] := by
  intro a b r needs env
  have hconsistent : env.catalog.Consistent := .of_flat (by cbv) (by decide +kernel) rfl
  have hcoherent : Coherent (Meets ⟨env, {}, .never, none⟩ [⟨r, true⟩]) :=
    coherent_meets hconsistent _
  have hsummary : (run ⟨env, {}, .never, none⟩ [⟨r, true⟩]).toOption.map (fun plan =>
      plan.stubs.length) = some 0 := by cbv
  rcases supported _ _ hcoherent with ⟨plan, hplan⟩ | hstopped | ⟨limit, hstopped | hstopped⟩
  · rw [hplan] at hsummary
    exact ⟨hcoherent, plan, hplan, List.length_eq_zero_iff.mp (Option.some.inj hsummary)⟩
  all_goals rw [hstopped] at hsummary; cases hsummary

/-- Two providers of one identity that are not alike: the check passes over what the second misses,
and planning fails. -/
theorem unsupported :
    let f : Ty := .plain "F"
    let m : Ty := .plain "M"
    let r : Ty := .plain "R"
    let ia : Ty := .plain "IA"
    let ib : Ty := .plain "IB"
    let needs (tys : List Ty) : List Parameter := tys.map fun ty => ⟨"", 0, ty, false⟩
    let env := ((({} : Declarations).addConstructor (.new f []) .dependency { exposedAs := [ia] })
      |>.addConstructor (.new f (needs [m])) .dependency { exposedAs := [ib] }
      |>.addConstructor (.new r (needs [ia, ib])) .resolution {}).build
    ∃ e, run ⟨env, {}, .never, none⟩ [⟨r, false⟩] = .error e ∧ e.isUnsupported = true := by
  intro f m r ia ib needs env
  refine ⟨.unprovided m, ?_, rfl⟩
  cbv

end Wiring.ContainerPlan
