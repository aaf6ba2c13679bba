import Wiring.Proofs.Assembly.Derivation
import Wiring.Proofs.Stops

/-!
# How a part of the assembly can fail

A part of the assembly fails only where one of its own parts does, at the limits of the run, or for
want of a provider. It is said here for errors of any kind, so that what is claimed of errors is proved
of the few places where they come from.

* `obtain_failsOnly`, `assemble_failsOnly` — a value and a plan, given their parts.
* `PlanError.Honours` — an error that names no depth but the configured one.
* `run_honours` — the assembly of a plan honours the depth of its settings.
-/

namespace Wiring

namespace Assembly

open Run

variable {kind : PlanError → Prop} {c : Settings} {nested : AssembleBody} {budget : Nat}
  {scope : Scope} {env : Environment} {p : Provider} {s : State}

/-! ### Parts that do not obtain anything -/

theorem checkpoint_limited (c : Settings) (s : State) :
    FailsOnly (PlanError.IsLimit c.maxDepth) (checkpoint c) s := by
  unfold checkpoint
  split
  · exact .throw .cancelled
  · exact .pure

theorem exhausted_limited {α : Type} (c : Settings) (s : State) :
    FailsOnly (PlanError.IsLimit c.maxDepth) (exhausted c : Assemble α) s :=
  (checkpoint_limited c s).bind fun _ _ _ => .throw .depthExceeded

theorem suspends_limited (c : Settings) (p : Provider) (s : State) :
    FailsOnly (PlanError.IsLimit c.maxDepth) (suspends c p) s := by
  unfold suspends
  refine .get_bind ?_
  cases h : Survey.suspendsWith c.maxDepth c.trigger c.container p s.answers with
  | ok found => exact .of_ok rfl
  | error e => exact .throw (Survey.suspendsWith_limited s.answers e h)

theorem singletonsAhead_limited (c : Settings) (env : Environment) (p : Provider) (s : State) :
    FailsOnly (PlanError.IsLimit c.maxDepth) (singletonsAhead c env p) s := by
  unfold singletonsAhead
  refine .get_bind ?_
  cases h : Survey.singletonsAhead c.maxDepth c.trigger env p s.answers with
  | ok found => exact .of_ok rfl
  | error e => exact .throw (Survey.singletonsAhead_limited s.answers e h)

theorem askAccessor_limited (c : Settings) (scope : Scope) (env : Environment) (p : Provider)
    (s : State) : FailsOnly (PlanError.IsLimit c.maxDepth) (askAccessor c scope env p) s := by
  unfold askAccessor
  refine (FailsOnly.of_ok (newVariable_run p.ty env s)).bind fun name t _ => ?_
  refine (suspends_limited c p t).bind fun answer u _ => ?_
  cases answer <;> exact .of_ok rfl

theorem createValue_failsOnly (scope : Scope) (env : Environment) (p : Provider) (name : String)
    (args : List (Option String)) (needs : List Step) (s : State) :
    FailsOnly kind (createValue scope env p name args needs) s := by
  unfold createValue
  cases p.isInitialized <;> cases p.isAsync <;> exact .of_ok rfl

theorem supplyValue_failsOnly (p : Provider) (name : String) (step : Step) (s : State) :
    FailsOnly kind (supplyValue p name step) s := by
  unfold supplyValue
  cases p.lifetime.isShared <;> exact .of_ok rfl

/-- A request without a provider fails at the limits, or because it is required. -/
theorem leaveOut_failsOnly {r : Request} (hlimit : ∀ e, e.IsLimit c.maxDepth → kind e)
    (hrequired : r.optional = false → kind (.unprovided r.ty)) :
    FailsOnly kind (obtain.leaveOut c budget r) s := by
  unfold obtain.leaveOut
  by_cases hbudget : budget = 0
  · rw [if_pos hbudget]
    exact ((exhausted_limited c s).mono hlimit).bind fun _ _ h => absurd h exhausted_ok
  · rw [if_neg hbudget]
    refine ((checkpoint_limited c s).mono hlimit).bind fun _ _ _ => ?_
    cases hoptional : r.optional with
    | true => exact .pure
    | false => exact .throw (hrequired hoptional)

/-- A body fails for want of a provider, or in its plan. -/
theorem assembleBody_failsOnly {ty : Ty} (hmissing : env.lookup ty = none → kind (.unprovidedBody ty))
    (hnested : ∀ target, env.lookup ty = some target →
      FailsOnly kind (nested scope env target s.singletons) s) :
    FailsOnly kind (assembleBody nested scope env ty) s := by
  unfold assembleBody
  cases hlookup : env.lookup ty with
  | none => exact .throw (hmissing hlookup)
  | some target => exact hnested target hlookup

theorem createDelegate_failsOnly {result : Ty} {isAsync : Bool} {name : String} {needs : List Step}
    (hbody : FailsOnly kind (assembleBody nested (scope.ofDelegate p isAsync name) env result) s) :
    FailsOnly kind (createDelegate nested scope env p result isAsync name needs) s := by
  unfold createDelegate
  refine FailsOnly.bind hbody fun body t _ => ?_
  dsimp only
  cases bodyRelease scope body (name ++ "_disposeActions") <;> exact .of_ok rfl

theorem createOwned_failsOnly {value : Ty} {isAsync : Bool} {name : String}
    (hbody : FailsOnly kind (assembleBody nested (scope.ofOwned isAsync) env value) s) :
    FailsOnly kind (createOwned nested scope env p value isAsync name) s := by
  unfold createOwned
  refine (FailsOnly.of_ok (noted?_run p s)).bind fun found t hfound => ?_
  cases (noted?_run p s).symm.trans hfound
  cases (s.obtained.find? fun entry => entry.1 = p.identity).map (·.2) with
  | some function => exact .of_ok rfl
  | none => exact FailsOnly.bind hbody fun body u _ => .of_ok rfl

/-! ### Values and plans -/

/-- A created value fails where one of its arguments does. -/
theorem createdValue_failsOnly
    (hsupplies : FailsOnly kind (((env.enter p).requests p).mapM fun request =>
      match request.provider? with
      | some q => some <$> obtain c nested scope budget false (env.enter p) q
      | none => obtain.leaveOut c budget request) s.afterName) :
    FailsOnly kind (createdValue c nested scope budget env p) s := by
  refine (FailsOnly.of_ok (newVariable_run p.ty env s)).bind fun name t hname => ?_
  cases (newVariable_run p.ty env s).symm.trans hname
  refine FailsOnly.bind hsupplies fun supplies u _ =>
    (createValue_failsOnly _ _ _ _ _ _ _).bind fun step v _ => supplyValue_failsOnly _ _ _ _

/-- A delegate fails where one of the singletons ahead of it does, or its body. -/
theorem delegateAfter_failsOnly {result : Ty} {isAsync : Bool} {name : String} {ahead : List Provider}
    (hsupplies : FailsOnly kind (ahead.mapM fun q => obtain c nested scope budget false env q) s)
    (hbody : ∀ supplies t, ahead.mapM (fun q => obtain c nested scope budget false env q) s =
        .ok supplies t →
      FailsOnly kind (assembleBody nested (scope.ofDelegate p isAsync name) (env.enter p) result) t) :
    FailsOnly kind (delegateAfter c nested scope budget env p result isAsync name ahead) s :=
  FailsOnly.bind hsupplies fun supplies t hrun =>
    (createDelegate_failsOnly (hbody supplies t hrun)).bind fun _ _ _ => supplyValue_failsOnly _ _ _ _

/-- Looking for the singletons ahead of a delegate fails at the limits only. -/
theorem delegateValue_failsOnly {ty result : Ty} {isAsync : Bool}
    (hlimit : ∀ e, e.IsLimit c.maxDepth → kind e)
    (hafter : ∀ ahead t, Hoists c scope env p isAsync s.afterName ahead t →
      FailsOnly kind (delegateAfter c nested scope budget env p result isAsync
        (variableName ty env s.named) ahead) t) :
    FailsOnly kind (delegateValue c nested scope budget env p ty result isAsync) s := by
  refine (FailsOnly.of_ok (newVariable_run ty env s)).bind fun name t hname => ?_
  cases (newVariable_run ty env s).symm.trans hname
  unfold Hoists at hafter
  by_cases hwaits : (scope.isAsync && !isAsync) = true
  · simp only [if_pos hwaits] at hafter ⊢
    exact ((singletonsAhead_limited c env p _).mono hlimit).bind fun ahead t hahead =>
      hafter ahead t (singletonsAhead_ok hahead)
  · simp only [if_neg hwaits] at hafter ⊢
    exact hafter [] _ ⟨rfl, rfl⟩

/-- An owned value fails where its body does. -/
theorem ownedValue_failsOnly {ty value : Ty} {isAsync : Bool}
    (hbody : FailsOnly kind (assembleBody nested (scope.ofOwned isAsync) (env.enter p) value)
      s.afterName) :
    FailsOnly kind (ownedValue nested scope env p ty value isAsync) s := by
  refine (FailsOnly.of_ok (newVariable_run ty env s)).bind fun name t hname => ?_
  cases (newVariable_run ty env s).symm.trans hname
  exact (createOwned_failsOnly hbody).bind fun _ _ _ => supplyValue_failsOnly _ _ _ _

/-- Obtaining a value fails at the limits, or where the value of its kind does. -/
theorem obtain_failsOnly {isTarget : Bool} (hlimit : ∀ e, e.IsLimit c.maxDepth → kind e)
    (hcreated : p.isCreated = true → usesAccessor scope isTarget p = false →
      FailsOnly kind (createdValue c nested scope budget env p) s)
    (hdelegate : ∀ ty result params isAsync, p = .delegate ty result params isAsync →
      FailsOnly kind (delegateValue c nested scope budget env p ty result isAsync) s)
    (howned : ∀ ty value isAsync, p = .owned ty value isAsync →
      FailsOnly kind (ownedValue nested scope env p ty value isAsync) s) :
    FailsOnly kind (obtain c nested scope (budget + 1) isTarget env p) s := by
  unfold obtain
  refine ((checkpoint_limited c s).mono hlimit).bind fun _ t hcheck => ?_
  obtain rfl := checkpoint_ok hcheck
  refine (FailsOnly.of_ok (atHand?_run scope p t)).bind fun hand u hrun => ?_
  cases (atHand?_run scope p t).symm.trans hrun
  cases atHand scope p t.obtained with
  | some found => exact .pure
  | none =>
      by_cases huses : usesAccessor scope isTarget p = true
      · simp only [if_pos huses]
        exact (askAccessor_limited c scope env p t).mono hlimit
      · simp only [if_neg huses]
        have huses : usesAccessor scope isTarget p = false := by simpa using huses
        cases p with
        | parameter param name depth => exact .pure
        | delegate ty result params isAsync => exact hdelegate ty result params isAsync rfl
        | owned ty value isAsync => exact howned ty value isAsync rfl
        | _ => exact hcreated rfl huses

/-- A plan fails where its value does, or where its steps cannot be arranged. -/
theorem assemble_failsOnly {nesting : Nat} {target : Provider}
    {known : List (Provider.Identity × Supply)}
    (hobtain : FailsOnly kind (obtain c (assemble c nesting) scope (c.maxDepth + 1) true env target)
      (s.forBody known))
    (harrange : ∀ supply t, obtain c (assemble c nesting) scope (c.maxDepth + 1) true env target
        (s.forBody known) = .ok supply t → scope.isAsync = true →
      FailedOnly kind (c.scheduler.arrange t.steps)) :
    FailsOnly kind (assemble c (nesting + 1) scope env target known) s := by
  rw [assemble]
  refine FailsOnly.bind (m := obtain c (assemble c nesting) scope (c.maxDepth + 1) true env target)
    (s := s.forBody known) hobtain fun supply t hobtained => .get_bind ?_
  by_cases hwaits : scope.isAsync = true
  · cases harranged : c.scheduler.arrange t.steps with
    | ok arranged =>
        simp only [hwaits, if_true, harranged]
        exact .of_ok rfl
    | error e =>
        simp only [hwaits, if_true, harranged]
        exact FailsOnly.bind (.of_ok rfl) fun _ _ _ =>
          .throw (harrange supply t hobtained hwaits e harranged)
  · simp only [hwaits]
    exact .of_ok rfl

/-- A plan assembled on its own fails where its assembly does. -/
theorem run_failedOnly {config : Config} {trigger : Trigger} {target : Provider}
    (h : ∀ nesting, FailsOnly kind
      (assemble (.ofConfig config trigger env) nesting scope env target []) .initial) :
    FailedOnly kind (run config trigger scope env target) := by
  intro e herror
  unfold run at herror
  dsimp only at herror
  generalize hrun : assemble (.ofConfig config trigger env) _ scope env target [] .initial = result
    at herror
  cases result with
  | ok plan s => cases herror
  | error e' s =>
      cases herror
      exact h _ e s hrun

end Assembly

/-! ### The depth named by an error -/

/-- An error names no depth but the given one. -/
def PlanError.Honours (depth : Nat) (e : PlanError) : Prop :=
  ∀ d, e = .depthExceeded d → d = depth

theorem PlanError.IsLimit.honours {limit : Nat} {e : PlanError} (h : e.IsLimit limit) :
    e.Honours limit := by
  rintro d rfl
  rcases h with h | h
  · cases h
  · exact PlanError.depthExceeded.inj h

/-- A round fails only for want of an await to force, and no depth comes into that. -/
theorem Schedule.next_honours (depth : Nat) {within done : List Nat} {pending : List Step} :
    Run.FailedOnly (PlanError.Honours depth) (next within done pending) := by
  rintro e h d rfl
  unfold next at h
  cases htaken : takeFirst (fun step => !step.statement.isAwait && isReady within done step)
      pending with
  | some taken =>
      rw [htaken] at h
      cases h
  | none =>
      rw [htaken] at h
      cases hlast : pending.getLast? with
      | none =>
          rw [hlast] at h
          cases h
      | some last =>
          rw [hlast] at h
          dsimp only at h
          split at h
          · cases h
          · split at h <;> cases h

/-- The order of steps is a matter of their needs, never of depth. -/
theorem Schedule.arrange_honours (depth : Nat) {within : List Nat} (rounds : Nat) {done : List Nat}
    {pending : List Step} :
    Run.FailedOnly (PlanError.Honours depth) (Schedule.arrange within rounds done pending) := by
  induction rounds generalizing done pending with
  | zero => exact .ok
  | succ rounds ih =>
      unfold arrange
      refine (next_honours depth).bind fun taken _ => ?_
      cases taken with
      | none => exact .ok
      | some taken => exact ih.bind fun _ _ => .ok

theorem Scheduler.arrange_honours (depth : Nat) (scheduler : Scheduler) (steps : List Step) :
    Run.FailedOnly (PlanError.Honours depth) (scheduler.arrange steps) := by
  cases scheduler with
  | longestChain => exact Schedule.arrange_honours depth _
  | emission => exact .ok

namespace Assembly

open Run

variable {c : Settings} {nested : AssembleBody}

/-- Bodies are assembled without naming another depth. -/
def BodiesHonour (depth : Nat) (nested : AssembleBody) : Prop :=
  ∀ scope env target known s, FailsOnly (PlanError.Honours depth) (nested scope env target known) s

theorem BodiesHonour.body {depth : Nat} (hbodies : BodiesHonour depth nested) (scope : Scope)
    (env : Environment) (ty : Ty) (s : State) :
    FailsOnly (PlanError.Honours depth) (assembleBody nested scope env ty) s :=
  assembleBody_failsOnly (fun _ _ h => nomatch h) fun target _ => hbodies scope env target _ s

/-- Obtaining a value names no depth but the one of the settings. The induction is on the budget. -/
theorem obtain_honours (hbodies : BodiesHonour c.maxDepth nested) (scope : Scope) (budget : Nat)
    (isTarget : Bool) (env : Environment) (p : Provider) (s : State) :
    FailsOnly (PlanError.Honours c.maxDepth) (obtain c nested scope budget isTarget env p) s := by
  have hlimit : ∀ e, PlanError.IsLimit c.maxDepth e → e.Honours c.maxDepth := fun _ h => h.honours
  induction budget generalizing isTarget env p s with
  | zero => exact (exhausted_limited c s).mono hlimit
  | succ budget ih =>
      refine obtain_failsOnly hlimit (fun _ _ => ?_) (fun ty result params isAsync _ => ?_)
        fun ty value isAsync _ => ?_
      · refine createdValue_failsOnly (FailsOnly.mapM (P := fun _ => True) (fun r _ t _ => ?_)
          (fun _ _ _ _ _ _ _ => trivial) trivial)
        cases r.provider? with
        | some q => exact (ih false _ q t).map
        | none => exact leaveOut_failsOnly hlimit fun _ _ h => nomatch h
      · refine delegateValue_failsOnly hlimit fun ahead t _ => delegateAfter_failsOnly ?_ ?_
        · exact FailsOnly.mapM (P := fun _ => True) (fun q _ t _ => ih false env q t)
            (fun _ _ _ _ _ _ _ => trivial) trivial
        · exact fun _ _ _ => hbodies.body _ _ _ _
      · exact ownedValue_failsOnly (hbodies.body _ _ _ _)

theorem assemble_honours (c : Settings) (nesting : Nat) :
    BodiesHonour c.maxDepth (assemble c nesting) := by
  induction nesting with
  | zero => exact fun _ _ _ _ _ => .throw fun _ h => nomatch h
  | succ nesting ih =>
      intro scope env target known s
      exact assemble_failsOnly (obtain_honours ih _ _ _ _ _ _) fun _ _ _ _ =>
        c.scheduler.arrange_honours _ _

theorem run_honours (config : Config) (trigger : Trigger) (scope : Scope) (env : Environment)
    (target : Provider) :
    FailedOnly (PlanError.Honours config.maxDepth) (run config trigger scope env target) :=
  run_failedOnly fun nesting => assemble_honours (.ofConfig config trigger env) nesting _ _ _ _ _

end Assembly

end Wiring
