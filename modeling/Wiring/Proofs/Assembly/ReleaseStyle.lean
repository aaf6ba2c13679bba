import Wiring.Proofs.Assembly.Reach
import Wiring.Proofs.Plan.Releases

/-!
# The style of releases

What offers both ways of being released is released in the style of its plan. The style comes from the
root, from the container or from the owned value around, and a delegate's body takes that of the plan
around it. Whether a release can run is another matter: that depends on whether its own plan can wait.

* `releaseStyle`, `canWait` — the style of a plan in a tree, and whether it can wait.
* `Plan.Styled` — the releases of a plan and of the bodies in it follow their styles.
* `Step.isFlexible` — the step releases a value in the style of its plan.
* `Assembles.styled` — assembled plans follow their styles.
* `Plan.Styled.unreleasable` — if every value can be released without waiting, the releases that cannot
  run are the flexible ones of an asynchronous style where the plan cannot wait.
-/

namespace Wiring

/-- The ways in which the value that a provider creates offers to be released. What a factory made is
handed back to it instead. -/
def Provider.release : Provider → Disposability
  | .construct _ rule => rule.disposability
  | .call _ rule => rule.disposability
  | .decorated _ decorator _ => decorator.release
  | _ => .none

/-- Whether the release of a created value suspends, in a plan of the given style. -/
def Provider.releasesAsync (style : Bool) : Provider → Bool
  | .factory _ _ _ _ isAsync => isAsync
  | p => p.release.isAsync style

/-- What the provider creates can be released without waiting: the value does not insist on it, and
neither does the factory that takes it back. -/
def Provider.OffersSync (p : Provider) : Prop :=
  p.release ≠ .async ∧ (p.isFactory = true → p.isAsync = false)

/-- What can be released without waiting is released so unless it offers both ways and the style is
asynchronous. -/
theorem Provider.OffersSync.releasesAsync {p : Provider} (h : p.OffersSync) (style : Bool) :
    p.releasesAsync style = (style && p.release == .both) := by
  have hrelease : ∀ d : Disposability, d ≠ .async → d.isAsync style = (style && d == .both) := by
    intro d hd
    cases d <;> cases style <;> first | rfl | exact absurd rfl hd
  cases p with
  | factory site product maker lifetime isAsync =>
      have hsync : isAsync = false := h.2 rfl
      rw [Provider.releasesAsync, hsync]
      exact (Bool.and_false style).symm
  | _ => exact hrelease _ h.1

/-! ### Styles in a tree -/

/-- Whether the release of a statement suspends, in a plan of the given style. The release of a
delegate drains what its body registered, and the statements with neither a value created nor a body
have no release. -/
def Statement.releasesAsync (style : Bool) : Statement → Bool
  | .create _ p _ => p.releasesAsync style
  | .delegate _ _ body _ => (body.steps.filterMap Step.release).any Release.isAsync || style
  | _ => false

/-- The style of the body that a statement holds. An owned value is released by itself, so it has a
style of its own. -/
def Statement.bodyStyle (style : Bool) : Statement → Bool
  | .delegate .. => style
  | statement => statement.isBodyAsync

/-- The style of a plan in a tree, given the style of the tree. -/
def releaseStyle (style : Bool) (around : List (Plan × Step)) : Bool :=
  around.foldr (fun level style => level.2.statement.bodyStyle style) style

/-- The releases of a plan follow its style, they can run unless they suspend where the plan cannot
wait, and the same goes for the bodies in it. -/
inductive Plan.Styled : (style isAsync : Bool) → Plan → Prop
  | plan {style isAsync : Bool} {plan : Plan}
      (runs : ∀ step ∈ plan.steps,
        step.releasable = step.release.any fun release => !release.isAsync || isAsync)
      (follows : ∀ step ∈ plan.steps, ∀ release, step.release = some release →
        release.isAsync = step.statement.releasesAsync style)
      (bodies : ∀ step ∈ plan.steps, ∀ body, step.statement.body? = some body →
        Plan.Styled (step.statement.bodyStyle style) step.statement.isBodyAsync body) :
      Plan.Styled style isAsync plan

/-- The part of one step. -/
structure Step.Styled (style isAsync : Bool) (step : Step) : Prop where
  runs : step.releasable = step.release.any fun release => !release.isAsync || isAsync
  follows : ∀ release, step.release = some release →
    release.isAsync = step.statement.releasesAsync style
  body : ∀ body, step.statement.body? = some body →
    body.Styled (step.statement.bodyStyle style) step.statement.isBodyAsync

/-- The step releases a value that offers both ways of it, or what was registered for a delegate. -/
def Step.isFlexible (step : Step) : Bool :=
  step.release.isSome &&
    match step.statement with
    | .create _ p _ => p.release == .both
    | .delegate .. => true
    | _ => false

namespace Plan.Styled

variable {style isAsync : Bool} {plan : Plan} {base : Environment}

/-- The plans in the tree follow their styles. -/
theorem within (h : plan.Styled style isAsync) {around : List (Plan × Step)} {nested : Plan}
    (hwithin : plan.Within around nested) :
    nested.Styled (releaseStyle style around) (canWait isAsync around) := by
  induction hwithin with
  | root => exact h
  | body _ hcarrier hbody ih =>
      cases ih with
      | plan _ _ bodies => exact bodies _ hcarrier _ hbody

/-- If every value can be released without waiting, only the flexible releases of an asynchronous
style suspend. The induction is on the bodies: what is registered for a delegate is released in the
style that the delegate has. -/
theorem isAsync_eq (h : plan.Styled style isAsync)
    (habout : plan.IsAbout Provider.OffersSync base) :
    ∀ step ∈ plan.steps, ∀ release, step.release = some release →
      release.isAsync = (style && step.isFlexible) := by
  induction h generalizing base with
  | @plan style isAsync plan runs follows bodies ih =>
      intro step hstep release hrelease
      have hsome : step.release.isSome = true := by rw [hrelease]; rfl
      rw [follows step hstep release hrelease, Step.isFlexible, hsome, Bool.true_and]
      have hstepIsAbout := habout.step hstep
      cases hstatement : step.statement with
      | create name p args =>
          exact (hstepIsAbout.provider p (by rw [hstatement]; rfl)).releasesAsync style
      | delegate name p body registry =>
          have hbody : step.statement.body? = some body := by rw [hstatement]; rfl
          have hnested := ih step hstep body hbody
            (hstepIsAbout.body p body (by rw [hstatement]; rfl) hbody)
          have hstyle : step.statement.bodyStyle style = style := by rw [hstatement]; rfl
          rw [Statement.releasesAsync, Bool.and_true, Bool.or_eq_right_iff_imp]
          intro hany
          obtain ⟨inner, hinner, hasync⟩ := List.any_eq_true.mp hany
          obtain ⟨carrier, hcarrier, hrelease'⟩ := List.mem_filterMap.mp hinner
          rw [hnested carrier hcarrier inner hrelease', hstyle, Bool.and_eq_true] at hasync
          exact hasync.1
      | _ => exact (Bool.and_false style).symm

/-- If every value can be released without waiting, the releases that cannot run are the flexible ones,
and those only in a plan of an asynchronous style that cannot wait. -/
theorem unreleasable (h : plan.Styled style isAsync)
    (habout : plan.IsAbout Provider.OffersSync base) :
    plan.unreleasable = if style && !isAsync then plan.steps.filter Step.isFlexible else [] := by
  have hasync := h.isAsync_eq habout
  have hstep : ∀ step ∈ plan.steps, (step.release.isSome && !step.releasable) =
      (style && !isAsync && step.isFlexible) := by
    cases h with
    | plan runs _ _ =>
        intro step hstep
        rw [runs step hstep]
        cases hrelease : step.release with
        | none => simp [Step.isFlexible, hrelease]
        | some release =>
            simp only [Option.isSome_some, Option.any_some, hasync step hstep release hrelease]
            cases style <;> cases isAsync <;> simp
  rw [Plan.unreleasable, List.filter_congr hstep]
  split
  · rename_i hwaits
    simp only [hwaits, Bool.true_and]
  · rename_i hwaits
    simp [Bool.eq_false_iff.mpr hwaits]

end Plan.Styled

namespace Assembly

variable {c : Settings} {scope : Scope} {env : Environment} {p : Provider} {s s' t : State}

/-! ### Releases as they are attached -/

theorem releaseOf_isAsync {disposability : Disposability} {name : String} {release : Release}
    (h : releaseOf scope disposability name = some release) :
    release.isAsync = disposability.isAsync scope.asyncRelease := by
  unfold releaseOf at h
  split at h
  · cases h
    rfl
  · cases h

theorem creationRelease_isAsync {args : List (Option String)} {name : String} {release : Release}
    (h : creationRelease scope p args name = some release) :
    release.isAsync = p.releasesAsync scope.asyncRelease := by
  unfold creationRelease at h
  split at h
  · obtain ⟨maker, -, rfl⟩ := Option.map_eq_some_iff.mp h
    rfl
  · exact releaseOf_isAsync h
  · exact releaseOf_isAsync h
  · exact releaseOf_isAsync h
  · cases h

theorem bodyRelease_isAsync {name registry : String} {body : Plan} {release : Release}
    (h : bodyRelease scope body registry = some release) :
    release.isAsync = (Statement.delegate name p body registry).releasesAsync scope.asyncRelease := by
  unfold bodyRelease at h
  split at h
  · cases h
  · cases h
    rfl

/-! ### The invariant -/

/-- The steps so far follow the style of the scope. -/
def State.Styled (scope : Scope) (s : State) : Prop :=
  ∀ step ∈ s.steps, step.Styled scope.asyncRelease scope.isAsync

namespace State.Styled

theorem congr (h : s.Styled scope) (hsteps : s'.steps = s.steps) : s'.Styled scope :=
  fun step hstep => h step (hsteps ▸ hstep)

theorem afterStep (h : s.Styled scope) {statement : Statement} {release : Option Release}
    {needs : List Step} {step : Step} (hstep : step = t.draft scope statement release needs)
    (hfollows : ∀ r, release = some r → r.isAsync = statement.releasesAsync scope.asyncRelease)
    (hbody : ∀ body, statement.body? = some body →
      body.Styled (statement.bodyStyle scope.asyncRelease) statement.isBodyAsync) :
    (s.afterStep step).Styled scope := by
  subst hstep
  intro other hmem
  rcases List.mem_append.mp hmem with hmem | hmem
  · exact h other hmem
  · obtain rfl := List.mem_singleton.mp hmem
    exact ⟨rfl, hfollows, hbody⟩

/-- One more step with neither a release nor a body. -/
theorem afterPlain (h : s.Styled scope) {statement : Statement} {needs : List Step} {step : Step}
    (hstep : step = t.draft scope statement none needs) (hbody : statement.body? = none) :
    (s.afterStep step).Styled scope :=
  h.afterStep hstep (fun _ hrelease => by cases hrelease)
    fun _ hbody' => absurd (hbody.symm.trans hbody') (by simp)

end State.Styled

theorem AsksAccessor.styled {supply : Supply} (h : AsksAccessor c scope env p s supply s')
    (hs : s.Styled scope) : s'.Styled scope := by
  cases h with
  | sync _ ht hasking =>
      subst ht
      exact (State.Styled.afterPlain (hs.congr rfl) hasking rfl).congr rfl
  | async _ ht hasking hwaiting =>
      subst ht
      exact ((State.Styled.afterPlain (hs.congr rfl) hasking rfl).afterPlain hwaiting rfl).congr rfl

theorem CreatesValue.styled {name : String} {args : List (Option String)} {needs : List Step}
    {step : Step} (h : CreatesValue scope env p name args needs s step s') (hs : s.Styled scope) :
    s'.Styled scope := by
  have hcreated : ∀ {made : String} {u t : State} {creating : Step}, u.Styled scope →
      creating = t.draft scope (.create made p args) (creationRelease scope p args name) needs →
        (u.afterStep creating).Styled scope := fun hu hcreating =>
    hu.afterStep hcreating (fun _ => creationRelease_isAsync) fun _ hbody => by cases hbody
  cases h with
  | plain _ _ hcreating => exact hcreated hs hcreating
  | awaited _ _ ht hcreating hwaiting =>
      subst ht
      exact (hcreated (hs.congr rfl) hcreating).afterPlain hwaiting rfl
  | initialized _ _ hcreating hstarting => exact (hcreated hs hcreating).afterPlain hstarting rfl
  | initializedAwaited _ _ hcreating ht hstarting hwaiting =>
      subst ht
      have hstarted := State.Styled.afterPlain ((hcreated hs hcreating).congr rfl) hstarting rfl
      exact hstarted.afterPlain hwaiting rfl

theorem EmitsDelegate.styled {name : String} {body : Plan} {needs : List Step} {step : Step}
    (h : EmitsDelegate scope p name body needs s step s') (hs : s.Styled scope)
    (hbody : body.Styled scope.asyncRelease p.isAsync) : s'.Styled scope := by
  have hbodies : ∀ registry body', (Statement.delegate name p body registry).body? = some body' →
      body'.Styled scope.asyncRelease p.isAsync := fun registry body' heq => by
    cases heq
    exact hbody
  cases h with
  | plain hrelease hcreating =>
      exact hs.afterStep hcreating (fun _ hnone => by cases hnone) (hbodies _)
  | registered hrelease hopening hcreating =>
      refine (hs.afterPlain hopening rfl).afterStep hcreating (fun release heq => ?_) (hbodies _)
      exact bodyRelease_isAsync (hrelease.trans heq)

/-! ### Derivations -/

mutual

/-- Obtaining a value keeps to the style of the scope: each release suspends as it does in that style,
and can run unless it suspends where the plan cannot wait. -/
theorem Obtains.styled {c : Settings} {scope : Scope} {isTarget : Bool} {env : Environment}
    {p : Provider} {s s' : State} {supply : Supply} :
    Obtains c scope isTarget env p s supply s' → s.Styled scope → s'.Styled scope
  | .atHand _, hs | .parameter _, hs => hs
  | .accessor _ _ hasks, hs => hasks.styled hs
  | .delegate hp _ _ hhoists heach _ hbody hemits, hs => by
      have ht := heach.styled (hs.congr hhoists.same.1)
      have hplan := hbody.styled
      exact (hemits.styled (ht.congr hbody.same.1) (by rw [hp]; exact hplan)).congr rfl
  | .ownedAgain _ _ ht _ hstep, hs => by
      subst ht
      exact State.Styled.afterPlain (hs.congr rfl) hstep rfl
  | .owned (t := t) (v := v) hp _ ht _ _ hbody hdefining _ hv hstep, hs => by
      have ht' : t.Styled scope := hs.congr (by rw [ht]; rfl)
      have hplan := hbody.styled
      have hdefined := State.Styled.afterStep (ht'.congr hbody.same.1) hdefining
        (fun _ hnone => by cases hnone) fun body heq => by
          cases heq
          subst hp
          exact hplan
      have hv' : v.Styled scope := hdefined.congr (by rw [hv]; rfl)
      exact hv'.afterPlain hstep rfl
  | .value _ _ _ _ heach hcreates, hs =>
      (hcreates.styled (heach.styled (hs.congr rfl))).congr (State.afterValue_steps ..)

/-- Obtaining several values keeps to the style of the scope. -/
theorem ObtainsEach.styled {c : Settings} {scope : Scope} {env : Environment}
    {requests : List Request} {s s' : State} {supplies : List (Option Supply)} :
    ObtainsEach c scope env requests s supplies s' → s.Styled scope → s'.Styled scope
  | .nil, hs => hs
  | .supplied _ head tail, hs => tail.styled (head.styled hs)
  | .leftOut _ _ tail, hs => tail.styled hs

/-- An assembled plan follows the style of its scope. -/
theorem Assembles.styled {c : Settings} {scope : Scope} {env : Environment} {target : Provider}
    {known : List (Provider.Identity × Supply)} {s s' : State} {plan : Plan} :
    Assembles c scope env target known s plan s' → plan.Styled scope.asyncRelease scope.isAsync
  | .body hobtains harranges => by
      have hs := hobtains.styled fun _ hmem => by cases hmem
      refine .plan (fun step hmem => ?_) (fun step hmem => ?_) fun step hmem => ?_
      · exact (hs step (harranges.perm.subset hmem)).runs
      · exact (hs step (harranges.perm.subset hmem)).follows
      · exact (hs step (harranges.perm.subset hmem)).body

end

end Assembly

section

variable {config : Config} {trigger : Trigger} {env : Environment} {isAsync : Bool}
  {target : Provider} {plan : Plan}

/-- The plan of a resolution releases in the style of the resolution. -/
theorem planResolution_styled (h : planResolution config trigger env isAsync target = .ok plan) :
    plan.Styled isAsync isAsync := by
  unfold planResolution at h
  obtain ⟨s, hassembles⟩ := Assembly.run_sound h
  exact hassembles.styled

/-- The plan of an accessor releases in the style of the container. -/
theorem planAccessor_styled {asyncRelease : Bool}
    (h : planAccessor config trigger env asyncRelease isAsync target = .ok plan) :
    plan.Styled asyncRelease isAsync := by
  unfold planAccessor at h
  obtain ⟨s, hassembles⟩ := Assembly.run_sound h
  exact hassembles.styled

end

end Wiring
