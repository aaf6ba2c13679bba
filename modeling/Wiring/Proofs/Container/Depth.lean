import Mathlib
import Wiring.Proofs.Arrays
import Wiring.Proofs.Container.Failures
import Wiring.Proofs.Names

/-!
# Which depth ends the planning of a container

Checks, surveys and assemblies take the depth of the settings, all but one: the survey of raw memory
keeps to the standard depth. So a container that may be deeper than that is turned away when a root is
too deep for this survey, and the error names a depth that nobody has set.

* `ContainerPlan.depth_honoured` — the depth named by an error is the one of the settings, unless a
  root passed its check and was too deep for the survey of raw memory.
* `chain`, `planRoot_chain` — declarations each of which needs the one before.
* `ContainerPlan.depth_not_honoured` — such a chain, deeper than the standard depth.
-/

namespace Wiring

open Run

/-! ### The depth named by an error -/

namespace ContainerPlan

variable {c : Settings} {requests : List RootRequest}

/-- A root passes its check, and the survey of raw memory then meets the standard depth. -/
def OutrunsSurvey (c : Settings) (request : RootRequest) : Prop :=
  PassesCheck c request ∧
    Survey.touchesRawMemory c.trigger c.env request.ty = .error (.depthExceeded standardDepth)

/-- The error names the depth of the settings if it names any, or a root outran the survey. -/
def DepthHonoured (c : Settings) (requests : List RootRequest) (e : PlanError) : Prop :=
  e.Honours c.config.maxDepth ∨
    (e = .depthExceeded standardDepth ∧ ∃ request ∈ requests, OutrunsSurvey c request)

theorem planRoot_honoured {request : RootRequest} (hrequest : request ∈ requests) :
    FailedOnly (DepthHonoured c requests) (planRoot c request) := by
  refine planRoot_failedOnly (fun _ hlimit => .inl hlimit.honours) (fun _ _ => .inl fun _ h => nomatch h)
    (fun hpasses e hsurvey => ?_) fun _ target _ => ?_
  · rcases Survey.touchesRawMemory_limited _ _ _ e hsurvey with rfl | rfl
    · exact .inl fun _ h => nomatch h
    · exact .inr ⟨rfl, request, hrequest, hpasses, hsurvey⟩
  · exact (Assembly.run_honours _ _ _ _ _).mono fun _ => .inl

theorem planAccessors_honours {asyncRelease : Bool} (limit : Nat) {index : Nat} {met : List Provider}
    {answers : Survey.Answers} :
    FailedOnly (PlanError.Honours c.config.maxDepth)
      (planAccessors c asyncRelease limit index met answers) :=
  planAccessors_failedOnly (fun _ h => nomatch h)
    (fun _ _ _ _ _ _ => planAccessorAt_failedOnly (fun _ hlimit => hlimit.honours) fun _ _ _ =>
      Assembly.run_honours _ _ _ _ _)
    (fun _ _ _ _ _ _ _ _ _ _ => trivial) limit (trivial : (fun _ _ => True) met answers)

theorem run_honoured (c : Settings) (requests : List RootRequest) :
    FailedOnly (DepthHonoured c requests) (run c requests) := by
  unfold run
  refine FailedOnly.bind (FailedOnly.mapM fun _ => planRoot_honoured) fun planned _ => ?_
  exact ((planAccessors_honours _).mono fun _ => .inl).bind fun _ _ => .ok

/-- The depth named by an error is the one of the settings, unless a root passed its check and was too
deep for the survey of raw memory, which keeps to the standard depth. -/
theorem depth_honoured (c : Settings) (requests : List RootRequest) (d : Nat)
    (h : run c requests = .error (.depthExceeded d)) :
    d = c.config.maxDepth ∨
      (d = standardDepth ∧ ∃ request ∈ requests, OutrunsSurvey c request) := by
  rcases run_honoured c requests _ h with hhonours | ⟨hstandard, houtrun⟩
  · exact .inl (hhonours d rfl)
  · exact .inr ⟨PlanError.depthExceeded.inj hstandard, houtrun⟩

/-- A root whose one dependency is deeper than the settings allow. -/
theorem depth_honoured_shallow :
    let a : Ty := .plain "A"
    let r : Ty := .plain "R"
    let env := ((({} : Declarations).addConstructor (.new a []) .single {})
      |>.addConstructor (.new r [⟨"a", 0, a, false⟩]) .resolution {}).build
    let c : Settings := ⟨env, { maxDepth := 0 }, .never, none⟩
    run c [⟨r, true⟩] = .error (.depthExceeded 0) ∧
      (0 = c.config.maxDepth ∨
        (0 = standardDepth ∧ ∃ request ∈ [⟨r, true⟩], OutrunsSurvey c request)) := by
  intro a r env c
  have hrun : run c [⟨r, true⟩] = .error (.depthExceeded 0) := by cbv
  exact ⟨hrun, depth_honoured c _ 0 hrun⟩

end ContainerPlan

/-! ### Chains of declarations -/

namespace Declarations

/-- The type of the link with a number. -/
def link (i : Nat) : Ty := .plain ("T" ++ toString i)

/-- The constructor of a link: it takes the link before, if there is one. -/
def linkMethod : Nat → Method
  | 0 => .new (link 0) []
  | i + 1 => .new (link (i + 1)) [⟨"p0", 0, link i, false⟩]

/-- As many links as given, each of which needs the one before. -/
def chain : Nat → Declarations
  | 0 => {}
  | n + 1 => (chain n).addConstructor (linkMethod n) .resolution {}

/-- The provider of a link. -/
def linkProvider (i : Nat) : Provider :=
  .construct (some i)
    { ty := link i
      lifetime := .resolution
      constructor := linkMethod i
      initialized := false
      isAsync := false
      disposability := .none }

variable {n i j : Nat}

theorem link_inj (h : link i = link j) : i = j := by
  have hstem : EndsPlain "T" := by simp [EndsPlain]
  injection h with hname
  exact (numbered_inj hstem hstem hname).2

theorem linkProvider_identity_inj (h : (linkProvider i).identity = (linkProvider j).identity) :
    i = j := by
  injection h with hty
  exact link_inj hty

theorem chain_sites (n : Nat) : (chain n).sites = n := by
  induction n with
  | zero => rfl
  | succ n ih => exact congrArg (· + 1) ih

theorem chain_decorators (n : Nat) : (chain n).decorators = [] := by
  induction n with
  | zero => rfl
  | succ n ih => exact ih

/-- A link is declared after the ones before it. -/
theorem chain_providers (n : Nat) : (chain n).providers = (List.range n).map linkProvider := by
  induction n with
  | zero => rfl
  | succ n ih =>
      rw [List.range_succ, List.map_append, ← ih]
      have howner : (linkMethod n).owner = link n := by cases n <;> rfl
      change (chain n).providers ++ [.construct (some (chain n).sites) _] = _
      rw [chain_sites, howner]
      rfl

/-- A link declared is the only provider of its type. -/
theorem declaredFor_chain (h : i < n) :
    (chain n).build.catalog.declaredFor (link i) = [linkProvider i] := by
  have hfilter : (chain n).providers.filter (fun p => p.ty = link i) = [linkProvider i] := by
    have htest : ∀ j ∈ List.range n, decide ((linkProvider j).ty = link i) = decide (j = i) :=
      fun j _ => decide_eq_decide.mpr ⟨link_inj, congrArg link⟩
    rw [chain_providers, List.filter_map]
    have hone : (List.range n).filter (fun j => j = i) = [i] := by
      rw [List.filter_eq, List.count_eq_one_of_mem List.nodup_range (List.mem_range.mpr h)]
      rfl
    exact congrArg (List.map linkProvider) ((List.filter_congr htest).trans hone)
  have hsublist := (chain n).declaredFor_sublist (link i)
  rw [hfilter] at hsublist
  rcases List.sublist_singleton.mp hsublist with hnil | hone
  · refine absurd rfl (declaredFor_eq_nil_iff.mp hnil (linkProvider i) ?_)
    rw [chain_providers]
    exact List.mem_map_of_mem (List.mem_range.mpr h)
  · exact hone

/-- Nothing wraps a link. -/
theorem decorate_chain (n : Nat) (p : Provider) : (chain n).build.catalog.decorate p = p := by
  have hnone : (chain n).build.catalog.decorators = .ofList [] :=
    congrArg DecoratorIndex.ofList (chain_decorators n)
  unfold Catalog.decorate
  rw [hnone]
  split <;> rfl

theorem lookup_chain (h : i < n) : (chain n).build.lookup (link i) = some (linkProvider i) := by
  have hdeclared := declaredFor_chain h
  obtain ⟨hitems, hresolve⟩ :=
    Catalog.items_declared (by rw [hdeclared]; exact List.cons_ne_nil _ _)
  rw [hitems, hdeclared, List.map_singleton, decorate_chain] at hresolve
  exact congrArg Resolution.provider? hresolve

/-- A request of a link. -/
def linkRequest (i : Nat) : Request := ⟨link i, false, some (linkProvider i)⟩

theorem request_chain (h : i < n) : (chain n).build.request (link i) = linkRequest i :=
  congrArg (Request.mk (link i) false) (lookup_chain h)

/-- A link leads to the one before. -/
theorem requests_chain (h : i < n) :
    (chain n).build.requests (linkProvider (i + 1)) = [linkRequest i] :=
  congrArg (fun p => [Request.mk (link i) false p]) (lookup_chain h)

/-- Links that a list does not hold are still not in it once a later one is. -/
theorem not_mem_cons_link {held : List Provider.Identity}
    (h : ∀ j ≤ i + 1, (linkProvider j).identity ∉ held) :
    ∀ j ≤ i, (linkProvider j).identity ∉ (linkProvider (i + 1)).identity :: held := by
  intro j hj hmem
  rcases List.mem_cons.mp hmem with heq | hmem
  · have := linkProvider_identity_inj heq
    omega
  · exact h j (Nat.le_succ_of_le hj) hmem

end Declarations

/-! ### Walks along a chain -/

section

open Declarations

variable {n i budget : Nat}

theorem Check.run_of_visit {c : Check.Settings} {env : Environment} {isAsync : Bool} {s : Check.State}
    (h : Check.visit c (c.maxDepth + 1) (.atRoot env isAsync) (env.root.request c.root) ⟨[], [], []⟩ =
      .ok () s) : Check.run c env isAsync = ⟨s.reported, none⟩ := by
  unfold Check.run
  simp only [EStateM.run, Check.Context.atRoot] at h ⊢
  rw [h]

theorem Survey.run_of_visit {α : Type} {survey : Survey α} {env : Environment} {r : Request}
    {start : α} {e : PlanError} {s : Survey.State α}
    (h : survey.visit (survey.maxDepth + 1) ⟨env, []⟩ r ⟨start, []⟩ = .error e s) :
    survey.run env r start = .error e := by
  unfold Survey.run
  rw [EStateM.run, h]

theorem Check.isFirstVisit_reported (ctx : Check.Context) (p : Provider) (s : Check.State) :
    ∃ first s', Check.isFirstVisit ctx p s = .ok first s' ∧ s'.reported = s.reported := by
  unfold Check.isFirstVisit
  dsimp only
  split
  · rw [get_bind]
    split
    · exact ⟨_, _, rfl, rfl⟩
    · exact ⟨_, _, rfl, rfl⟩
  · exact ⟨_, _, rfl, rfl⟩

/-- The check finds nothing wrong with a chain of which no more is left than the budget allows. -/
theorem Check.visit_chain {c : Check.Settings} (htrigger : c.trigger = .never) (ctx : Check.Context)
    (henv : ctx.env = (chain n).build) (hi : i < n) (hbudget : i < budget)
    (hsegment : ∀ j ≤ i, (linkProvider j).identity ∉ ctx.segment) {s : Check.State}
    (hs : s.reported = []) :
    ∃ s', Check.visit c budget ctx (linkRequest i) s = .ok () s' ∧ s'.reported = [] := by
  induction budget generalizing i ctx s with
  | zero => cases hbudget
  | succ budget ih =>
      have hlive : Check.checkpoint c s = .ok () s := by
        unfold Check.checkpoint
        rw [get_bind, htrigger]
        rfl
      -- No link is in its own segment, and no link waits for anything.
      have hfault : Check.fault? ctx (linkProvider i) = none := by
        unfold Check.fault?
        rw [if_neg (hsegment i le_rfl)]
        rfl
      obtain ⟨first, t, hfirst, ht⟩ := isFirstVisit_reported ctx (linkProvider i) s
      have hvisit : Check.visit c (budget + 1) ctx (linkRequest i) s =
          (if first then ((ctx.enter (linkProvider i)).env.requests (linkProvider i)).forM
            (Check.visit c budget (ctx.enter (linkProvider i))) else pure ()) t := by
        unfold Check.visit
        rw [bind_of_ok hlive]
        simp only [linkRequest, hfault]
        exact bind_of_ok hfirst
      rw [hvisit]
      cases first with
      | false => exact ⟨t, rfl, ht.trans hs⟩
      | true =>
          have henter : (ctx.enter (linkProvider i)).env = (chain n).build := henv
          cases i with
          | zero => exact ⟨t, rfl, ht.trans hs⟩
          | succ i =>
              rw [henter, requests_chain (Nat.lt_of_succ_lt hi)]
              obtain ⟨u, hrest, hu⟩ := ih _ henter (Nat.lt_of_succ_lt hi)
                (Nat.lt_of_succ_lt_succ hbudget) (not_mem_cons_link hsegment) (ht.trans hs)
              exact ⟨u, bind_ok.mpr ⟨(), u, hrest, rfl⟩, hu⟩

/-- The survey of raw memory ends in a chain of which more is left than its budget allows. -/
theorem Survey.visit_chain (ctx : Survey.Context) (henv : ctx.env = (chain n).build) (hi : i < n)
    (hbudget : budget ≤ i) (entered : List Provider.Identity)
    (hentered : ∀ j ≤ i, (linkProvider j).identity ∉ entered) :
    ∃ s', (Survey.rawMemory .never).visit budget ctx (linkRequest i) ⟨false, entered⟩ =
      .error (.depthExceeded standardDepth) s' := by
  induction budget generalizing i ctx entered with
  | zero => exact ⟨_, rfl⟩
  | succ budget ih =>
      obtain ⟨i, rfl⟩ := Nat.exists_eq_succ_of_ne_zero (Nat.ne_zero_of_lt hbudget)
      have henter : (ctx.enter (linkProvider (i + 1))).env = (chain n).build := henv
      -- Every link is visited for the first time, as nothing further down the chain was entered before.
      have hfirst : Survey.isFirstVisit ctx (linkProvider (i + 1)) ⟨false, entered⟩ =
          .ok true ⟨false, (linkProvider (i + 1)).identity :: entered⟩ := by
        unfold Survey.isFirstVisit
        have hnear : ctx.env.isContainer = true := by rw [henv]; rfl
        rw [hnear, Bool.true_or, if_pos rfl, get_bind, if_neg (hentered _ le_rfl)]
        rfl
      obtain ⟨u, hrest⟩ := ih _ henter (Nat.lt_of_succ_lt hi) (Nat.le_of_succ_le_succ hbudget) _
        (not_mem_cons_link hentered)
      refine ⟨u, ?_⟩
      have hlive : (Survey.rawMemory .never).trigger.hasFired 0 = false := rfl
      have hopen : (Survey.rawMemory .never).isSettled false = false := rfl
      have hask : (Survey.rawMemory .never).ask (linkProvider (i + 1)) ⟨false, entered⟩ =
          .ok true ⟨false, entered⟩ := rfl
      unfold Survey.visit
      simp only [hlive, Bool.false_eq_true, if_false, linkRequest]
      rw [get_bind]
      simp only [hopen, Bool.false_eq_true, if_false]
      rw [bind_of_ok hask, if_pos rfl, bind_of_ok hfirst, if_pos rfl]
      simp only [henter, requests_chain (Nat.lt_of_succ_lt hi)]
      exact bind_of_error hrest

end

namespace ContainerPlan

open Declarations

variable {n i maxDepth : Nat}

/-- A link of a chain as deep as the settings allow, but deeper than the standard depth, passes its
check and is then turned away by the survey of raw memory. -/
theorem planRoot_chain (hi : i < n) (hdepth : i ≤ maxDepth) (hstandard : standardDepth < i) :
    planRoot ⟨(chain n).build, { maxDepth }, .never, none⟩ ⟨link i, false⟩ =
      .error (.depthExceeded standardDepth) := by
  have hrequest : (chain n).build.root.request (link i) = linkRequest i := request_chain hi
  have hcheck : Check.run ⟨link i, maxDepth, .never, none⟩ (chain n).build false = ⟨[], none⟩ := by
    obtain ⟨t, hvisit, hreported⟩ := Check.visit_chain (c := ⟨link i, maxDepth, .never, none⟩) rfl
      (.atRoot (chain n).build false) rfl hi (Nat.lt_succ_of_le hdepth) (fun _ _ => List.not_mem_nil)
      (s := ⟨[], [], []⟩) rfl
    rw [← hrequest] at hvisit
    exact (Check.run_of_visit hvisit).trans (congrArg (Check.Outcome.mk · none) hreported)
  have hsurvey : Survey.touchesRawMemory .never (chain n).build (link i) =
      .error (.depthExceeded standardDepth) := by
    obtain ⟨u, hvisit⟩ := Survey.visit_chain ⟨(chain n).build, []⟩ rfl hi
      (Nat.succ_le_of_lt hstandard) [] fun _ _ => List.not_mem_nil
    rw [← hrequest] at hvisit
    exact Survey.run_of_visit hvisit
  have hlookup : (chain n).build.root.lookup (link i) = some (linkProvider i) := lookup_chain hi
  unfold planRoot
  simp only [hcheck, hlookup, hsurvey]
  rfl

/-- Each of a chain of types is built from the one before, the root from more than a thousand of them;
the settings allow for it and for nothing deeper. -/
theorem depth_not_honoured :
    let c : Settings := ⟨(chain 1027).build, { maxDepth := 1025 }, .never, none⟩
    run c [⟨link 1025, false⟩, ⟨link 1026, false⟩] = .error (.depthExceeded 1024) ∧
      c.config.maxDepth ≠ 1024 := by
  intro c
  refine ⟨?_, by decide⟩
  unfold run
  rw [List.mapM_cons, planRoot_chain (by decide) (by decide) (by decide)]
  rfl

end ContainerPlan

end Wiring
