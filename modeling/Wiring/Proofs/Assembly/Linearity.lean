import Mathlib
import Wiring.Declarations
import Wiring.Proofs.Assembly.Origin
import Wiring.Proofs.Plan.Linearity
import Wiring.Proofs.Unfolding.Consistency

/-!
# Values that are not shared are used once

A value that is not shared is obtained anew wherever it is asked for, so what is left in variables and
what is taken from them balances. Names are assigned once, so each such variable is one argument; and
nothing known to a body refers to it.

* `State.Balances` — the unshared values that some steps leave are those taken, and those pending.
* `Obtains.balances` — a value just obtained is pending if it is not shared.
* `Embedded.count_arguments` — only what asks for an unshared value can take one.
* `planResolution_usesOnce` — so in every plan of the tree a value that is not shared is used once, and
  no body mentions it.
-/

namespace Wiring

namespace Assembly

variable {c : Settings} {scope : Scope} {env base : Environment} {p : Provider} {s s' t u : State}
  {supply : Supply} {before middle after : List String}

/-! ### The balance -/

/-- The variable of a value that was obtained, unless others may use it as well. -/
def pendingOf (p : Provider) (name : String) : List String :=
  if p.lifetime = .dependency then [name] else []

theorem pendingOf_of_ne {name : String} (h : p.lifetime ≠ .dependency) : pendingOf p name = [] :=
  if_neg h

/-- Between two states: the unshared values pending before and those that the steps leave are the ones
that the steps take, and those pending after. -/
inductive State.Balances (base : Environment) (before after : List String) (s s' : State) : Prop
  | intro {new : List Step} (steps : s'.steps = s.steps ++ new)
      (balance : (before ++ new.filterMap Step.unshared?).Perm
        (new.flatMap (Step.takes base) ++ after))

namespace State.Balances

/-- No step was made. -/
theorem none (base : Environment) (hsteps : s'.steps = s.steps) : Balances base [] [] s s' := by
  have hnew : s'.steps = s.steps ++ [] := by rw [hsteps, List.append_nil]
  exact .intro hnew (.refl _)

/-- Only the steps of the two states count. -/
theorem congr (h : Balances base before after t u) (hfirst : s.steps = t.steps)
    (hlast : s'.steps = u.steps) : Balances base before after s s' := by
  obtain ⟨hnew, hbalance⟩ := h
  exact .intro (by rw [hlast, hnew, hfirst]) hbalance

/-- One more step takes what was pending, and leaves its value. -/
theorem afterStep (base : Environment) (s : State) (step : Step) :
    Balances base (step.takes base) step.unshared?.toList s (s.afterStep step) := by
  have hnew : (s.afterStep step).steps = s.steps ++ [step] := rfl
  refine .intro hnew ?_
  cases hunshared : step.unshared? <;> simp [hunshared]

theorem trans (h : Balances base before middle s t) (h' : Balances base middle after t u) :
    Balances base before after s u := by
  obtain ⟨hsteps, hbalance⟩ := h
  obtain ⟨hsteps', hbalance'⟩ := h'
  refine .intro (by rw [hsteps', hsteps, List.append_assoc]) ?_
  rw [List.filterMap_append, List.flatMap_append, ← List.append_assoc]
  refine (hbalance.append_right _).trans ?_
  rw [List.append_assoc, List.append_assoc]
  exact hbalance'.append_left _

/-- What else is pending stays so. -/
theorem frame (h : Balances base before after s t) (further : List String) :
    Balances base (further ++ before) (further ++ after) s t := by
  obtain ⟨hsteps, hbalance⟩ := h
  refine .intro hsteps ?_
  rw [List.append_assoc]
  refine (hbalance.append_left _).trans ?_
  rw [← List.append_assoc, ← List.append_assoc]
  exact List.perm_append_comm.append_right _

/-- One more step that takes nothing and leaves nothing. -/
theorem afterPlain (h : Balances base before after s t) (step : Step) (htakes : step.takes base = [])
    (hunshared : step.unshared? = .none) : Balances base before after s (t.afterStep step) := by
  have hstep := (afterStep base t step).frame after
  rw [htakes, hunshared, Option.toList_none, List.append_nil] at hstep
  exact h.trans hstep

theorem afterValue (h : Balances base before after s t) (p : Provider) (supply : Supply) :
    Balances base before after s (t.afterValue p supply) :=
  h.congr rfl (t.afterValue_steps p supply)

end State.Balances

/-! ### The parts of a derivation -/

theorem AsksAccessor.balances (h : AsksAccessor c scope env p s supply s') (hp : p.lifetime = .single) :
    State.Balances base [] [] s s' := by
  have hshared : ∀ {name : String} {isAsync : Bool},
      (Statement.single name p isAsync).isUnshared = false := by
    intro name isAsync
    simp [Statement.isUnshared, Statement.value?, hp]
  cases h with
  | @sync answers t asking _ ht hasking =>
      subst ht
      have hasked := (State.Balances.none base (s := s) rfl).afterPlain asking
        (by simp [hasking, Step.takes]) (by simp [hasking, Step.unshared?, hshared])
      exact hasked.congr rfl rfl
  | @async answers t asking waiting _ ht hasking hwaiting =>
      subst ht
      have hasked := (State.Balances.none base (s := s) rfl).afterPlain asking
        (by simp [hasking, Step.takes]) (by simp [hasking, Step.unshared?, hshared])
      have hwaited := hasked.afterPlain waiting (by simp [hwaiting, Step.takes])
        (by simp [hwaiting, hasking, Step.unshared?, hshared])
      exact hwaited.congr rfl rfl

/-- The steps that create a value take the arguments that come unshared, and leave the value. One of
them leaves it: the creation, or where that hands out a task, the step that waits for it. -/
theorem CreatesValue.balances {name : String} {args : List (Option String)} {needs : List Step}
    {step : Step} (h : CreatesValue scope env p name args needs s step s') :
    State.Balances base
      (argumentsFor (fun q => q.lifetime = .dependency) ((base.enter p).requests p) args)
      (pendingOf p name) s s' := by
  -- Where the creation hands out a task, the value is left by the step that waits for it.
  have hcreates : ∀ {t : State} {creating : Step} {own : String},
      creating.statement = .create own p args →
        State.Balances base
          (argumentsFor (fun q => q.lifetime = .dependency) ((base.enter p).requests p) args)
          (if p.isAsync && !p.isInitialized then [] else pendingOf p own) t
          (t.afterStep creating) := by
    intro t creating own hcreating
    have hcreated := State.Balances.afterStep base t creating
    have htakes : creating.takes base =
        argumentsFor (fun q => q.lifetime = .dependency) ((base.enter p).requests p) args := by
      rw [Step.takes, hcreating]
    have hunshared : creating.unshared?.toList =
        if p.isAsync && !p.isInitialized then [] else pendingOf p own := by
      simp only [Step.unshared?, hcreating, Statement.isUnshared, Statement.value?,
        Statement.holdsTask, Statement.assigned?, pendingOf, Option.any_some]
      by_cases htask : (p.isAsync && !p.isInitialized) = true <;>
        by_cases hp : p.lifetime = .dependency <;> simp [htask, hp]
    rwa [htakes, hunshared] at hcreated
  cases h with
  | plain hinit hasync hcreating =>
      have hcreated := hcreates (t := s) (show step.statement = _ by rw [hcreating]; rfl)
      rwa [hasync] at hcreated
  | @awaited t creating _ hinit hasync ht hcreating hwaiting =>
      -- Two steps: the first takes the arguments and leaves nothing, the second leaves the value.
      have hstatement : creating.statement = .create (variableName p.ty env s.named) p args := by
        rw [hcreating]
        rfl
      have hcreated := hcreates (t := t) hstatement
      rw [hasync, hinit] at hcreated
      have hwaited := State.Balances.afterStep base (t.afterStep creating) step
      have htakes : step.takes base = [] := by rw [hwaiting]; rfl
      have hunshared : step.unshared?.toList = pendingOf p name := by
        by_cases hp : p.lifetime = .dependency <;>
          simp [hwaiting, Step.unshared?, hstatement, Statement.holdsTask, Statement.isUnshared,
            Statement.value?, hasync, hinit, pendingOf, hp]
      rw [htakes, hunshared] at hwaited
      subst ht
      exact (hcreated.trans hwaited).congr rfl rfl
  | @initialized creating _ hinit hasync hcreating hstarting =>
      -- An initialization takes no arguments and leaves no value, and neither does waiting for it.
      have hcreated := hcreates (t := s) (show creating.statement = _ by rw [hcreating]; rfl)
      rw [hasync] at hcreated
      exact hcreated.afterPlain step (by simp [hstarting, Step.takes])
        (by simp [hstarting, Step.unshared?, Statement.isUnshared, Statement.value?])
  | @initializedAwaited t creating starting _ hinit hasync hcreating ht hstarting hwaiting =>
      have hcreated := hcreates (t := s) (show creating.statement = _ by rw [hcreating]; rfl)
      rw [hasync, hinit] at hcreated
      have hcreated : State.Balances base _ (pendingOf p name) s t :=
        hcreated.congr rfl (by rw [ht]; rfl)
      have hstarted := hcreated.afterPlain starting (by simp [hstarting, Step.takes])
        (by simp [hstarting, Step.unshared?, Statement.isUnshared, Statement.value?])
      exact hstarted.afterPlain step (by simp [hwaiting, Step.takes])
        (by simp [hwaiting, hstarting, Step.unshared?, Statement.holdsTask])

/-- The steps that create a delegate take and leave nothing of that kind. -/
theorem EmitsDelegate.balances {name : String} {body : Plan} {needs : List Step} {step : Step}
    (h : EmitsDelegate scope p name body needs u step s') (hp : p.isDelegate = true)
    (hu : State.Balances base before after s u) : State.Balances base before after s s' := by
  have hshared : ∀ registry, (Statement.delegate name p body registry).isUnshared = false := by
    cases p with
    | delegate => exact fun _ => rfl
    | _ => cases hp
  cases h with
  | plain hrelease hcreating =>
      exact hu.afterPlain step (by simp [hcreating, Step.takes])
        (by simp [hcreating, Step.unshared?, hshared])
  | @registered drain opening _ hrelease hopening hcreating =>
      have hopened := hu.afterPlain opening (by simp [hopening, Step.takes])
        (by simp [hopening, Step.unshared?, Statement.isUnshared, Statement.value?])
      exact hopened.afterPlain step (by simp [hcreating, Step.takes])
        (by simp [hcreating, Step.unshared?, hshared])

/-- Only singletons are obtained ahead. -/
theorem Hoists.lifetime {isAsync : Bool} {ahead : List Provider}
    (h : Hoists c scope env p isAsync s ahead s') : ∀ q ∈ ahead, q.lifetime = .single := by
  have hknows : env.Knows (fun _ => True) fun _ => True := .of_all fun _ => trivial
  exact fun q hq => (h.known hknows (.of_all fun _ => trivial) q hq).1

/-- No unshared value comes from singletons. -/
theorem argumentsFor_given_eq_nil {providers : List Provider} {args : List (Option String)}
    (h : ∀ q ∈ providers, q.lifetime = .single) :
    argumentsFor (fun q => q.lifetime = .dependency) (providers.map Environment.given) args = [] := by
  refine List.eq_nil_iff_forall_not_mem.mpr fun v hv => ?_
  obtain ⟨request, q, hmem, hq, hdependency⟩ := mem_argumentsFor.mp hv
  obtain ⟨q', hq', rfl⟩ := List.mem_map.mp (List.of_mem_zip hmem).1
  cases hq
  have hsingle := h q hq'
  rw [of_decide_eq_true hdependency] at hsingle
  cases hsingle

/-- What is at hand is shared. -/
theorem lifetime_of_atHand {obtained : List (Provider.Identity × Supply)}
    (h : atHand scope p obtained = some supply) : p.lifetime ≠ .dependency := by
  intro hp
  rcases Option.or_eq_some_iff.mp h with hnoted | ⟨-, haround⟩
  · rw [hp] at hnoted
    cases hnoted
  · split at haround
    · rename_i hdelegate
      obtain ⟨ty, result, params, isAsync, rfl⟩ := Provider.eq_delegate hdelegate
      cases hp
    · cases haround

/-- Calling the function of an owned value leaves that value. -/
theorem State.Balances.call {name function : String} {ty value : Ty} {isAsync own : Bool} {step : Step}
    (hp : p = .owned ty value isAsync) (h : State.Balances base [] [] s t)
    (hstep : step.statement = .owned name p own function) :
    State.Balances base [] (pendingOf p name) s (t.afterStep step) := by
  have hcalled := State.Balances.afterStep base t step
  have htakes : step.takes base = [] := by rw [Step.takes, hstep]
  have hunshared : step.unshared?.toList = pendingOf p name := by
    subst hp
    simp [Step.unshared?, hstep, Statement.isUnshared, Statement.value?, Statement.holdsTask,
      Statement.assigned?, pendingOf, Provider.lifetime]
  rw [htakes, hunshared] at hcalled
  exact h.trans hcalled

/-! ### Derivations -/

mutual

/-- A value just obtained is pending if it is not shared; apart from that the steps made balance: what
they leave they take. So in a finished plan each value that is not shared is taken once, or is the
result. -/
theorem Obtains.balances {c : Settings} {σ : Setup} {scope : Scope} {isTarget : Bool}
    {env : Environment} {p : Provider} {s s' : State} {supply : Supply} :
    Obtains c scope isTarget env p s supply s' → scope = σ.scope → σ.scope.FitsIn σ.base →
      Requested σ.among σ.base env p → State.Balances σ.base [] (pendingOf p supply.name) s s'
  -- What is at hand or has an accessor is shared, so nothing of it is pending.
  | .atHand hhand, _, _, _ => by
      rw [pendingOf_of_ne (lifetime_of_atHand hhand)]
      exact .none _ rfl
  | .parameter _, _, _, _ => .none _ rfl
  | .accessor _ huses hasks, _, _, _ => by
      have hsingle := lifetime_of_usesAccessor huses
      rw [pendingOf_of_ne (by rw [hsingle]; exact Lifetime.noConfusion)]
      exact hasks.balances hsingle
  -- The singletons ahead of a delegate are no arguments of its step, and they are shared as well.
  | .delegate (t := t) hp _ _ hhoists heach hlookup hbody hemits, hσ, hscope, hasked => by
      have hahead := heach.balances hσ hscope (Hoists.requested (hσ ▸ hhoists) hasked)
      rw [argumentsFor_given_eq_nil hhoists.lifetime] at hahead
      have hbodied : State.Balances σ.base [] [] s _ := hahead.congr hhoists.same.1.symm hbody.same.1
      have hcreated := hemits.balances (by rw [hp]; rfl) hbodied
      rw [pendingOf_of_ne (by rw [hp]; exact Lifetime.noConfusion)]
      exact hcreated.congr rfl rfl
  -- Each call of the function of an owned value leaves a value of its own.
  | .ownedAgain (t := t) hp hname ht hnoted hstep, _, _, _ => by
      have hnamed : State.Balances σ.base [] [] s t := .none _ (by rw [ht]; rfl)
      exact hnamed.call hp (by rw [hstep]; rfl)
  | @Obtains.owned _ _ _ _ _ ty value isAsync name _ t u v function target body defining step hp
      hname ht _ hlookup hbody hdefining hfunction hv hstep, _, _, _ => by
      have hbodied : State.Balances σ.base [] [] s u.afterName :=
        .none _ (hbody.same.1.trans (by rw [ht]; rfl))
      have hdefined := hbodied.afterPlain defining (by simp [hdefining, Step.takes])
        (by simp [hdefining, Step.unshared?, Statement.isUnshared, Statement.value?])
      have hnoted : State.Balances σ.base [] [] s v := hdefined.congr rfl (by rw [hv]; rfl)
      exact hnoted.call hp (by rw [hstep]; rfl)
  -- What the dependencies leave pending the creation takes, which is the heart of the matter: after it
  -- only the new value is pending.
  | @Obtains.value _ _ _ _ p name _ _ _ _ step hp _ huses _ heach hcreates, hσ, hscope, hasked => by
      have hrequests := heach.balances hσ hscope
        fun r hr q hq => hasked.request hp huses (hσ ▸ hscope) hr hq
      rw [hasked.enter_eq] at hrequests
      have hcreated := (hrequests.trans hcreates.balances).afterValue p ⟨name, some step⟩
      exact hcreated.congr rfl rfl

/-- What was obtained for several requests is pending where it is not shared. -/
theorem ObtainsEach.balances {c : Settings} {σ : Setup} {scope : Scope} {env : Environment}
    {requests : List Request} {s s' : State} {supplies : List (Option Supply)} :
    ObtainsEach c scope env requests s supplies s' → scope = σ.scope → σ.scope.FitsIn σ.base →
      (∀ r ∈ requests, ∀ q, r.provider? = some q → Requested σ.among σ.base env q) →
        State.Balances σ.base []
          (argumentsFor (fun q => q.lifetime = .dependency) requests (namesOf supplies)) s s'
  | .nil, _, _, _ => .none _ rfl
  | @ObtainsEach.supplied _ _ _ _ _ p _ _ _ supply supplies hprovider head tail, hσ, hscope,
      hasked => by
      have hhead := head.balances hσ hscope (hasked _ List.mem_cons_self _ hprovider)
      have htail := tail.balances hσ hscope fun r hr => hasked r (List.mem_cons_of_mem _ hr)
      have hframed := htail.frame (pendingOf p supply.name)
      rw [List.append_nil] at hframed
      have hnames : namesOf (some supply :: supplies) = some supply.name :: namesOf supplies := rfl
      rw [hnames, argumentsFor_cons, hprovider]
      simpa [pendingOf] using hhead.trans hframed
  | .leftOut hprovider hoptional tail, hσ, hscope, hasked => by
      have htail := tail.balances hσ hscope fun r hr => hasked r (List.mem_cons_of_mem _ hr)
      rw [namesOf, List.map_cons, argumentsFor_cons, hprovider]
      exact htail

end

/-- The unshared values that the steps of a plan leave are those that its steps take, and its result. -/
theorem Assembled.balanced {σ : Setup} {target : Provider} {plan : Plan}
    (h : Assembled c σ target plan) :
    ∃ supply, σ.among target ∧ σ.StandsFor plan.steps target.identity supply ∧
      supply.name = plan.target ∧ (plan.steps.filterMap Step.unshared?).Perm
        (plan.steps.flatMap (Step.takes σ.base) ++ pendingOf target plan.target) := by
  obtain ⟨hassembles, hscope, hasked, hknown⟩ := h
  cases hassembles with
  | body hobtains harranges =>
      obtain ⟨-, -, hstands⟩ := hobtains.sourced rfl hscope hasked (.start hknown _)
      obtain ⟨hsteps, hbalance⟩ := hobtains.balances rfl hscope hasked
      refine ⟨_, hasked.among_self, hstands.mono harranges.perm.symm.subset, rfl, ?_⟩
      rw [State.forBody, List.nil_append] at hsteps
      rw [← hsteps, List.nil_append] at hbalance
      refine (harranges.perm.filterMap _).trans (hbalance.trans ?_)
      exact (harranges.perm.symm.flatMap_right _).append_right _

/-! ### Where a variable occurs -/

/-- A parameter of a delegate is not called like a variable. -/
theorem IsVariable.ne_parameterName {v name : String} (h : IsVariable v) (hname : IsParameterName name) :
    name ≠ v := by
  obtain ⟨ty, env, n, rfl⟩ := h
  obtain ⟨depth, index, rfl⟩ := hname
  intro heq
  have hgenerated : Generated n (parameterName depth index) := heq ▸ .value ty env
  exact not_generated_parameterName hgenerated

/-- Nor is a registry. -/
theorem IsVariable.ne_registry {v : String} (h : IsVariable v) (name : String) :
    v ≠ name ++ "_disposeActions" := by
  obtain ⟨ty, env, n, rfl⟩ := h
  obtain ⟨stem, -, hnumbered⟩ := variableName_numbered ty env n
  rw [hnumbered]
  exact numbered_ne_plain (registry_endsPlain name)

/-- A release names the value and, where it is handed back, the factory object among the arguments. -/
theorem mem_names_of_creationRelease {args : List (Option String)} {value v : String}
    {release : Release} (h : creationRelease scope p args value = some release)
    (hv : v ∈ release.names) : v = value ∨ some v ∈ args := by
  have hreleaseOf : ∀ disposability, releaseOf scope disposability value = some release →
      v = value := by
    intro disposability h
    obtain ⟨-, hrelease⟩ := Option.ite_none_right_eq_some.mp h
    cases hrelease
    exact List.mem_singleton.mp hv
  unfold creationRelease at h
  split at h
  · obtain ⟨maker, hmaker, rfl⟩ := Option.map_eq_some_iff.mp h
    have hargs : some maker ∈ args := List.mem_of_mem_head? (Option.join_eq_some_iff.mp hmaker)
    rcases List.mem_cons.mp hv with rfl | hv
    · exact .inl rfl
    · exact .inr (List.mem_singleton.mp hv ▸ hargs)
  · exact .inl (hreleaseOf _ h)
  · exact .inl (hreleaseOf _ h)
  · exact .inl (hreleaseOf _ h)
  · cases h

/-- A step leaves an unshared value in a variable of its own. -/
theorem Setup.Origin.isVariable {σ : Setup} {steps : List Step} {step : Step} {v : String}
    (h : σ.Origin c steps step) (hunshared : step.unshared? = some v) : IsVariable v := by
  have hassigned := Step.assigned?_of_unshared? hunshared
  cases h with
  | asks hstatement hsingle =>
      simp [Step.unshared?, hstatement, Statement.isUnshared, Statement.value?, hsingle] at hunshared
  | creates hstatement _ _ _ _ _ _ _ _ hnamed =>
      rw [hstatement] at hassigned
      cases hassigned
      exact hnamed
  | awaits hstatement _ _ _ _ _ hnamed =>
      rw [hstatement] at hassigned
      exact hnamed v hassigned
  | delegates hstatement _ _ _ hdelegate =>
      simp [Step.unshared?, hstatement, Statement.isUnshared, Statement.value?,
        Provider.lifetime_of_isDelegate hdelegate] at hunshared
  | calls hstatement _ _ _ hnamed =>
      rw [hstatement] at hassigned
      cases hassigned
      exact hnamed
  | opens hstatement | starts hstatement | defines hstatement =>
      simp [Step.unshared?, hstatement, Statement.isUnshared, Statement.value?] at hunshared

section

variable {σ τ : Setup} {among : Provider → Prop} {root plan : Plan} {around : List (Plan × Step)}
  {step : Step} {v : String}

/-- What stands for a value under the variable of an unshared one is that value, in its own plan: names
are assigned once in the whole tree, and only shared values are used from other plans. -/
theorem Embedded.of_standsFor {i : Provider.Identity} (h : Embedded c among env root around plan τ)
    (hstep : step ∈ root.tree) (hunshared : step.unshared? = some v)
    (hstands : τ.StandsFor plan.steps i supply) (hname : supply.name = v)
    (hi : ∀ param depth, i ≠ .parameter param v depth) :
    step ∈ plan.steps ∧ i.lifetime = .dependency := by
  have hassigned := Step.assigned?_of_unshared? hunshared
  -- The variable tells the step that leaves the value.
  have hstepIs : ∀ other ∈ root.tree, other.statement.assigned? = some v → other = step :=
    fun other hother hother' => Wiring.eq_of_assigned h.distinct.names hother hstep hother' hassigned
  have hmem : ∀ {steps : List Step} {q : Provider} {found : Step}, (∀ s ∈ steps, s ∈ root.tree) →
      Delivers steps q v found → step ∈ steps ∧ q.lifetime = .dependency := by
    intro steps q found hsteps hdelivers
    obtain ⟨-, hmaker, hvalue, hlast, hfinishes, -⟩ := hdelivers
    obtain rfl := hstepIs _ (hsteps _ hlast) hfinishes.assigned
    exact ⟨hlast, hfinishes.lifetime_of_unshared? hvalue hunshared⟩
  -- A name stands for a value in four ways. A parameter called like the variable is excluded; delegates
  -- and inherited singletons are shared, and the value of the step is not.
  subst hname
  cases hstands with
  | parameter => exact absurd rfl (hi _ _)
  | around haround =>
      obtain ⟨level, hlevel, p, body, registry, hstatement, hentry⟩ := h.delegates _ haround
      obtain ⟨-, -, hcarrier, -⟩ := h.within.of_mem hlevel
      obtain rfl := hstepIs _ (h.within.mem_tree_of_mem hlevel hcarrier) (by rw [hstatement]; rfl)
      have hp : p.lifetime ≠ .dependency := by
        rw [← Provider.lifetime_identity, ← hentry]
        exact Lifetime.noConfusion
      simp [Step.unshared?, hstatement, Statement.isUnshared, Statement.value?, hp] at hunshared
  | made _ hdelivers =>
      obtain ⟨hmade, hlifetime⟩ := hmem (fun _ => h.within.mem_tree) hdelivers
      exact ⟨hmade, by rw [Provider.lifetime_identity, hlifetime]⟩
  | inherited _ hsingle hdelivers =>
      have houtside : ∀ s ∈ τ.outside, s ∈ root.tree := by
        intro s hs
        obtain ⟨level, hlevel, hlevelSteps⟩ := h.outside s hs
        exact h.within.mem_tree_of_mem hlevel hlevelSteps
      rw [(hmem houtside hdelivers).2] at hsingle
      cases hsingle

end

/-- A variable that occurs in a plan: it is assigned there, or stands for a value. -/
inductive Setup.Occurs (σ : Setup) (steps : List Step) : String → Prop
  | assigned {step : Step} {v : String} (hstep : step ∈ steps)
      (hname : step.statement.assigned? = some v) : σ.Occurs steps v
  | stands {q : Provider} {supply : Supply} (hamong : σ.among q)
      (hstands : σ.StandsFor steps q.identity supply) : σ.Occurs steps supply.name

section

variable {σ τ : Setup} {among : Provider → Prop} {root plan : Plan} {around : List (Plan × Step)}
  {steps : List Step} {step : Step} {v : String}

/-- An argument stands for the value of its provider. -/
theorem Setup.Occurs.of_mem_names {requests : List Request} {supplies : List (Option Supply)}
    (h : List.Forall₂ (σ.Supplies steps) requests supplies) (hv : some v ∈ namesOf supplies) :
    σ.Occurs steps v := by
  obtain ⟨supply?, hmem, hname⟩ := List.mem_map.mp hv
  obtain ⟨supply, rfl, rfl⟩ := Option.map_eq_some_iff.mp hname
  obtain ⟨i, hi, hget⟩ := List.getElem_of_mem hmem
  have hi' : i < requests.length := h.length_eq ▸ hi
  have hsupplied := h.get hi' hi
  rw [List.get_eq_getElem, List.get_eq_getElem, hget] at hsupplied
  cases hsupplied with
  | supplied _ hamong hstands => exact .stands hamong hstands

/-- What a step reads occurs in its plan. -/
theorem Setup.Origin.read (h : σ.Origin c steps step) (hv : v ∈ step.statement.reads) :
    σ.Occurs steps v := by
  cases h with
  | creates hstatement hargs _ hsupplies =>
      rw [hstatement, Statement.reads, List.mem_filterMap] at hv
      obtain ⟨_, harg, rfl⟩ := hv
      exact .of_mem_names hsupplies (hargs ▸ harg)
  | starts hstatement hmaker _ hname =>
      rw [hstatement] at hv
      exact .assigned hmaker (List.mem_singleton.mp hv ▸ hname)
  | awaits hstatement hmaker _ htask =>
      rw [hstatement] at hv
      exact .assigned hmaker (List.mem_singleton.mp hv ▸ htask)
  | calls hstatement hdefining hfunction =>
      rw [hstatement] at hv
      exact .assigned hdefining (List.mem_singleton.mp hv ▸ hfunction)
  | asks hstatement | opens hstatement | delegates hstatement | defines hstatement =>
      rw [hstatement] at hv
      exact absurd hv List.not_mem_nil

/-- The registry of a delegate is not called like a variable. -/
theorem Setup.Origin.registry_ne (h : σ.Origin c steps step) (hv : IsVariable v) :
    step.statement.registry? ≠ some v := by
  intro hregistry
  cases h with
  | delegates hstatement _ _ _ _ hname =>
      rw [hstatement] at hregistry
      cases hregistry
      exact hv.ne_registry _ hname
  | asks hstatement | opens hstatement | creates hstatement | starts hstatement | awaits hstatement
  | defines hstatement | calls hstatement =>
      rw [hstatement] at hregistry
      cases hregistry

/-- The variables of a step's release occur in its plan. -/
theorem Setup.Origin.released_occurs {release : Release} (h : σ.Origin c steps step)
    (hrelease : step.release = some release) (hv : v ∈ release.names) (hvariable : IsVariable v) :
    σ.Occurs steps v := by
  cases h with
  | creates hstatement hargs _ hsupplies horigin hlast hfinishes =>
      rcases mem_names_of_creationRelease (horigin.symm.trans hrelease) hv with rfl | harg
      · exact .assigned hlast hfinishes.assigned
      · exact .of_mem_names hsupplies (hargs ▸ harg)
  | delegates _ _ horigin _ _ hregistry =>
      unfold bodyRelease at horigin
      split at horigin
      · cases horigin.symm.trans hrelease
      · cases horigin.symm.trans hrelease
        exact absurd ((List.mem_singleton.mp hv).trans hregistry) (hvariable.ne_registry _)
  | _ => simp_all

/-- What is mentioned under the name of a variable occurs. -/
theorem Embedded.occurs (h : Embedded c among env root around plan τ) (hv : IsVariable v)
    (hmentions : plan.Mentions v) : τ.Occurs plan.steps v := by
  rcases hmentions with rfl | ⟨step, hstep, hmem⟩
  · obtain ⟨target, hassembled⟩ := h.assembled
    obtain ⟨hamong, supply, hstands, hname⟩ := hassembled.origins.2
    exact hname ▸ .stands hamong hstands
  · have horigin := h.origin hstep
    simp only [Step.mentions, List.mem_append, Option.mem_toList, List.mem_flatMap] at hmem
    rcases hmem with ((hassigned | hread) | hregistry) | ⟨release, hrelease, hname⟩
    · exact .assigned hstep hassigned
    · exact horigin.read hread
    · exact absurd hregistry (horigin.registry_ne hv)
    · exact horigin.released_occurs hrelease hname hv

/-! ### Unshared values -/

/-- An unshared value is mentioned only in the plan that makes it. -/
theorem Embedded.mem_of_mentions (h : Embedded c (Provider.Avoids v) env root around plan τ)
    (hstep : step ∈ root.tree) (hunshared : step.unshared? = some v) (hv : IsVariable v)
    (hmentions : plan.Mentions v) : step ∈ plan.steps := by
  cases h.occurs hv hmentions with
  | @assigned other _ hother hname =>
      have htree := h.within.mem_tree hother
      obtain rfl := Wiring.eq_of_assigned h.distinct.names htree hstep hname
        (Step.assigned?_of_unshared? hunshared)
      exact hother
  | stands hamong hstands =>
      rw [h.among] at hamong
      exact (h.of_standsFor hstep hunshared hstands rfl hamong.identity_ne).1

/-- Only what asks for unshared values has one as an argument. -/
theorem Embedded.count_arguments (h : Embedded c (Provider.Avoids v) env root around plan τ)
    (hstep : step ∈ plan.steps) (hunshared : step.unshared? = some v) :
    plan.arguments.count v = (plan.steps.flatMap (Step.takes τ.base)).count v := by
  have htree := h.within.mem_tree hstep
  rw [Plan.arguments, List.count_flatMap, List.count_flatMap]
  refine congrArg List.sum (List.map_congr_left fun other hother => ?_)
  have horigin := h.origin hother
  cases horigin with
  | creates hstatement hargs _ hsupplies =>
      simp only [Function.comp_apply, Step.takes, hstatement, Statement.arguments]
      refine (count_argumentsFor (by simp [hargs, namesOf, hsupplies.length_eq]) ?_).symm
      intro request hzip
      rw [hargs] at hzip
      obtain ⟨q, supply, hprovider, -, hname, hamong, hstands⟩ := Setup.standsFor_of_zip hsupplies hzip
      rw [h.among] at hamong
      have hlifetime := (h.of_standsFor htree hunshared hstands hname hamong.identity_ne).2
      rw [Provider.lifetime_identity] at hlifetime
      simp [hprovider, hlifetime]
  | asks hstatement | opens hstatement | starts hstatement | awaits hstatement
  | delegates hstatement | defines hstatement | calls hstatement =>
      simp [Step.takes, hstatement, Statement.arguments, Statement.creation?]

/-- Unshared values are left in variables of their own. -/
theorem nodup_unshared {steps : List Step} (h : (assignedIn steps).Nodup) :
    (steps.filterMap Step.unshared?).Nodup := by
  rw [assignedIn, List.Nodup, List.pairwise_filterMap] at h
  rw [List.Nodup, List.pairwise_filterMap]
  refine h.imp fun hdiffer v hv w hw => ?_
  exact hdiffer v (Step.assigned?_of_unshared? hv) w (Step.assigned?_of_unshared? hw)

/-- An unshared value is used once in its plan, by a creation or as the result, because the steps of the
plan balance. -/
theorem Embedded.usesOnce (h : Embedded c (Provider.Avoids v) env root around plan τ)
    (hstep : step ∈ plan.steps) (hunshared : step.unshared? = some v) : plan.UsesOnce v := by
  have htree := h.within.mem_tree hstep
  obtain ⟨target, hassembled⟩ := h.assembled
  obtain ⟨supply, hamong, hstands, hname, hbalance⟩ := hassembled.balanced
  have hnodup := nodup_unshared (h.distinct.assigned h.within)
  have hone : (plan.steps.filterMap Step.unshared?).count v = 1 :=
    List.count_eq_one_of_mem hnodup (List.mem_filterMap.mpr ⟨step, hstep, hunshared⟩)
  rw [hbalance.count_eq, List.count_append, ← h.count_arguments hstep hunshared] at hone
  by_cases htarget : plan.target = v
  · rw [h.among] at hamong
    have hlifetime := (h.of_standsFor htree hunshared hstands (hname.trans htarget)
      (Provider.Avoids.identity_ne hamong)).2
    rw [Provider.lifetime_identity] at hlifetime
    rw [pendingOf, if_pos hlifetime, htarget, List.count_singleton_self] at hone
    exact .inr ⟨htarget, by omega⟩
  · have hpending : (pendingOf target plan.target).count v = 0 := by
      rw [List.count_eq_zero, pendingOf]
      split
      · exact fun hmem => htarget (List.mem_singleton.mp hmem).symm
      · exact List.not_mem_nil
    exact .inl ⟨by omega, htarget⟩

/-- A step that makes an unshared value hands it over. -/
theorem Setup.Origin.handsOver (h : σ.Origin c steps step)
    (hvalue : step.statement.value? = some p) (hp : p.lifetime = .dependency) :
    ∃ v, HandsOver steps step v := by
  cases h with
  | asks hstatement hsingle =>
      rw [hstatement] at hvalue
      cases hvalue
      cases hsingle.symm.trans hp
  | creates _ _ _ _ _ hlast hfinishes => exact ⟨_, hfinishes.handsOver hlast⟩
  | delegates hstatement _ _ _ hdelegate =>
      rw [hstatement] at hvalue
      cases hvalue
      cases (Provider.lifetime_of_isDelegate hdelegate).symm.trans hp
  | calls hstatement => exact ⟨_, .own (by rw [hstatement]; rfl) (by rw [hstatement]; rfl)⟩
  | opens hstatement | starts hstatement | awaits hstatement | defines hstatement =>
      rw [hstatement] at hvalue
      cases hvalue

end

end Assembly

/-- Each step of the tree that makes a value that is not shared hands it over. Unless a parameter given in
full has the name of its variable, the value is used once: it is one argument in its plan, or the result
and no argument, and it occurs in no body of that plan. -/
theorem planResolution_usesOnce (config : Config) (trigger : Trigger) (env : Environment)
    (isAsync : Bool) (target : Provider) (plan : Plan)
    (h : planResolution config trigger env isAsync target = .ok plan)
    (around : List (Plan × Step)) (nested : Plan) (hwithin : plan.Within around nested) (maker : Step)
    (hmaker : maker ∈ nested.steps) (p : Provider) (hvalue : maker.statement.value? = some p)
    (hp : p.lifetime = .dependency) :
    (∃ v, HandsOver nested.steps maker v) ∧ ∀ v, HandsOver nested.steps maker v →
      env.Avoids v → target.Avoids v → nested.UsesOnce v ∧
        ∀ (further : List (Plan × Step)) (inner : Plan),
          nested.Within further inner → further ≠ [] → ¬ inner.Mentions v := by
  obtain ⟨σ, hplaced⟩ := Assembly.planResolution_embedded_anyhow h hwithin
  refine ⟨(hplaced.origin hmaker).handsOver hvalue hp, fun v hv henv htarget => ?_⟩
  have hisUnshared : maker.statement.isUnshared = true := by
    rw [Statement.isUnshared, hvalue]
    exact decide_eq_true hp
  obtain ⟨step, hstep, hunshared⟩ := Step.unshared?_of_handsOver hv hmaker hisUnshared
  -- Parameters of delegates are never called like a variable; those given in full are not called like
  -- this one by assumption, wherever they are met below the root.
  have hvariable := (hplaced.origin hstep).isVariable hunshared
  have hbelow : (Place.mk env true (Environment.given target)).Within (Provider.Avoids v) := by
    have hgiven : ∀ q, (Environment.given target).provider? = some q → q.Avoids v := by
      intro q hq
      cases hq
      exact htarget
    intro x hx
    exact (Place.known_of_leads (x := ⟨env, true, Environment.given target⟩)
      (fun _ => hvariable.ne_parameterName) henv hgiven hx).2
  obtain ⟨τ, hembedded⟩ := Assembly.planResolution_embedded h hbelow hwithin
  refine ⟨hembedded.usesOnce hstep hunshared, fun further inner hinner hfurther hmentions => ?_⟩
  -- Of the plans in the tree only one has the step that leaves the value.
  obtain ⟨τ', hembedded'⟩ := Assembly.planResolution_embedded h hbelow (hwithin.trans hinner)
  have hmem := hembedded'.mem_of_mentions (hwithin.mem_tree hstep) hunshared hvariable hmentions
  obtain ⟨carrier, hlevel⟩ := hinner.exists_mem hfurther
  exact (hwithin.trans hinner).not_mem hembedded.distinct.ids
    (List.mem_append_left _ hlevel) (Plan.mem_tree hmem) hstep

/-- An owned value goes to the one that asked for it, next to another value of the same provider. Its own
value is made in the body of its function. -/
theorem planResolution_usesOnce_owned :
    let a : Ty := .plain "A"
    let r : Ty := .plain "R"
    let needs (tys : List Ty) : List Parameter := tys.map fun ty => ⟨"", 0, ty, false⟩
    let env := ((({} : Declarations).addConstructor (.new a []) .dependency { isAsync := true })
      |>.addConstructor (.new r (needs [a, .owned a true])) .dependency {}).build
    ∃ target plan carrier body maker p, env.lookup r = some target ∧
      planResolution {} .never env true target = .ok plan ∧ plan.Within [(plan, carrier)] body ∧
        body.steps.map Step.mentions = [["a_1_4"], ["a_1_5", "a_1_4"], ["a_1_5"]] ∧
        maker ∈ plan.steps ∧ maker.statement.value? = some p ∧ p.lifetime = .dependency ∧
        HandsOver plan.steps maker "owned_a_0_3" ∧ plan.arguments = ["a_0_1", "owned_a_0_3"] ∧
          plan.UsesOnce "owned_a_0_3" ∧ ¬ body.Mentions "owned_a_0_3" := by
  intro a r needs env
  have henv : env.Avoids "owned_a_0_3" :=
    ⟨.of_flat (by cbv), fun _ hmem => absurd hmem List.not_mem_nil⟩
  have hsummary : ((env.lookup r).bind fun target =>
      (planResolution {} .never env true target).toOption).map (fun plan =>
        (plan.arguments, plan.steps.map fun s =>
          ((s.statement.assigned?, s.statement.holdsTask, s.statement.value?.map Provider.lifetime),
            s.statement.body?.map fun body => body.steps.map Step.mentions))) =
      some (["a_0_1", "owned_a_0_3"],
        [((some "a_0_1", false, some .dependency), none), ((some "a_0_2", false, none), none),
          ((some "create_owned_a_6", false, none),
            some [["a_1_4"], ["a_1_5", "a_1_4"], ["a_1_5"]]),
          ((some "owned_a_0_3", false, some .dependency), none), ((none, false, none), none),
          ((some "r_0_0", false, some .dependency), none)]) := by cbv
  obtain ⟨plan, hplan, hsummary⟩ := Option.map_eq_some_iff.mp hsummary
  obtain ⟨target, hlookup, hok⟩ := Option.bind_eq_some_iff.mp hplan
  obtain ⟨harguments, hsteps⟩ := Prod.mk.inj hsummary
  have hok := Run.ok_of_toOption hok
  obtain ⟨_, rest, hplan₁, -, hrest⟩ := List.map_eq_cons_iff.mp hsteps
  obtain ⟨_, rest, rfl, -, hrest⟩ := List.map_eq_cons_iff.mp hrest
  obtain ⟨carrier, rest, rfl, hcarrier, hrest⟩ := List.map_eq_cons_iff.mp hrest
  obtain ⟨maker, _, rfl, hmaker, -⟩ := List.map_eq_cons_iff.mp hrest
  obtain ⟨-, hbody⟩ := Prod.mk.inj hcarrier
  obtain ⟨body, hbody, hmentions⟩ := Option.map_eq_some_iff.mp hbody
  obtain ⟨hkind, -⟩ := Prod.mk.inj hmaker
  obtain ⟨hname, hkind⟩ := Prod.mk.inj hkind
  obtain ⟨hvalue, hlifetime⟩ := Prod.mk.inj hkind
  obtain ⟨p, hp, hdependency⟩ := Option.map_eq_some_iff.mp hlifetime
  have hwithin : plan.Within [(plan, carrier)] body := .body .root (by simp [hplan₁]) hbody
  have hmem : maker ∈ plan.steps := by simp [hplan₁]
  have hhands : HandsOver plan.steps maker "owned_a_0_3" := .own hvalue hname
  obtain ⟨-, huses⟩ := planResolution_usesOnce _ _ _ _ _ _ hok _ _ .root maker hmem p hp hdependency
  obtain ⟨honce, hinner⟩ := huses _ hhands henv (henv.lookup hlookup)
  exact ⟨target, plan, carrier, body, maker, p, hlookup, hok, hwithin, hmentions, hmem, hp,
    hdependency, hhands, harguments, honce, hinner _ _ hwithin (List.cons_ne_nil _ _)⟩

/-- A parameter given in full may be called like a variable; then the two are one argument. -/
theorem planResolution_usesTwice :
    let a : Ty := .plain "A"
    let b : Ty := .plain "B"
    let r : Ty := .plain "R"
    let need (ty : Ty) : Parameter := ⟨"", 0, ty, false⟩
    let env := ((({} : Declarations).addConstructor (.new a []) .dependency {})
      |>.addProvider (.parameter (need b) "a_0_1" 0)
      |>.addConstructor (.new r [need a, need b]) .resolution {}).build
    ∃ target plan maker p, env.lookup r = some target ∧
      planResolution {} .never env false target = .ok plan ∧ maker ∈ plan.steps ∧
        maker.statement.value? = some p ∧ p.lifetime = .dependency ∧
        HandsOver plan.steps maker "a_0_1" ∧ plan.arguments = ["a_0_1", "a_0_1"] ∧
          ¬ plan.UsesOnce "a_0_1" := by
  intro a b r need env
  have hsummary : ((env.lookup r).bind fun target =>
      (planResolution {} .never env false target).toOption).map (fun plan =>
        ((plan.arguments, plan.target), plan.steps.map fun s =>
          (s.statement.assigned?, s.statement.holdsTask, s.statement.value?.map Provider.lifetime))) =
      some ((["a_0_1", "a_0_1"], "r_0_0"),
        [(some "a_0_1", false, some .dependency), (some "r_0_0", false, some .resolution)]) := by cbv
  obtain ⟨plan, hplan, hsummary⟩ := Option.map_eq_some_iff.mp hsummary
  obtain ⟨target, hlookup, hok⟩ := Option.bind_eq_some_iff.mp hplan
  obtain ⟨huses, hsteps⟩ := Prod.mk.inj hsummary
  obtain ⟨harguments, htarget⟩ := Prod.mk.inj huses
  obtain ⟨maker, _, hplan₁, hmaker, -⟩ := List.map_eq_cons_iff.mp hsteps
  obtain ⟨hname, hkind⟩ := Prod.mk.inj hmaker
  obtain ⟨hvalue, hlifetime⟩ := Prod.mk.inj hkind
  obtain ⟨p, hp, hdependency⟩ := Option.map_eq_some_iff.mp hlifetime
  refine ⟨target, plan, maker, p, hlookup, Run.ok_of_toOption hok, by simp [hplan₁], hp, hdependency,
    .own hvalue hname, harguments, ?_⟩
  simp [Plan.UsesOnce, harguments, htarget]

end Wiring
