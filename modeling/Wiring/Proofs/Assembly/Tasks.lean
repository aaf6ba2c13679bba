import Mathlib
import Wiring.Declarations
import Wiring.Proofs.Assembly.Memory
import Wiring.Proofs.Hooks
import Wiring.Proofs.Nesting

/-!
# Every task is waited for once

What suspends hands out a task: an asynchronous singleton when it is asked for, an initialization that
suspends, a factory, a function or a decorator that does. Each is planned by a part of its own, and
whether a statement suspends is told from the provider, apart from how it was planned.

* `Plan.PairsTasks` — the tasks that the steps of a plan hand out and those that they wait for are the
  same, each once.
* `Paired` — a list of steps in which they are; every part of the assembly adds such a list.
* `Statement.suspends_create` — where constructors suspend in hooks only, what a creation is told to do
  is what was planned for it.
* `planResolution_pairsTasks` — tasks pair up in every plan of the tree of a plan.
-/

namespace Wiring

/-! ### Tasks -/

/-- A type of tasks, with a result or without. -/
def Ty.IsTask (ty : Ty) : Prop :=
  ty = .plain "Task" ∨ ∃ result, ty = Statement.taskOf result

/-- The task that a statement waits for. -/
def Statement.awaited? : Statement → Option String
  | .await _ task _ => some task
  | _ => none

/-- The variable that a statement declares. -/
def Statement.declared? (statement : Statement) : Option String :=
  statement.declaration?.map Declaration.name

/-- Every step that suspends declares the variable of a task, for which one step of the plan waits,
later on and because of it; and what a step waits for is declared by one step of the plan, which
suspends. -/
structure Plan.PairsTasks (plan : Plan) : Prop where
  awaited : ∀ step ∈ plan.steps, step.statement.suspends = true →
    ∃ task ty waiting, step.statement.declaration? = some ⟨task, ty⟩ ∧ ty.IsTask ∧
      plan.steps.filter (fun other => other.statement.awaited? = some task) = [waiting] ∧
        step ∈ waiting.needs ∧ plan.Precedes step waiting
  started : ∀ waiting ∈ plan.steps, ∀ task, waiting.statement.awaited? = some task →
    ∃ step, plan.steps.filter (fun other => other.statement.declared? = some task) = [step] ∧
      step.statement.suspends = true

/-! ### Steps in pairs -/

/-- The variable of the task that a statement hands out. -/
def Statement.task? (statement : Statement) : Option String :=
  if statement.givesTask then statement.assigned? else none

theorem Statement.task?_create {name : String} {p : Provider} {args : List (Option String)} :
    (Statement.create name p args).task? =
      if p.isAsync && !p.isInitialized then some name else none := rfl

/-- An initialization has a task just if it suspends. -/
def Statement.isTimely : Statement → Bool
  | .start task _ isAsync => isAsync == task.isSome
  | _ => true

/-- The steps wait for the tasks that they hand out: the tasks awaited are the tasks handed out, each
once. -/
structure Paired (steps : List Step) : Prop where
  tasks : (steps.filterMap fun step => step.statement.awaited?).Perm
    (steps.filterMap fun step => step.statement.task?)
  timely : ∀ step ∈ steps, step.statement.isTimely = true

namespace Paired

variable {first second : List Step} {step asking waiting : Step} {name : String}

theorem nil : Paired [] := ⟨.refl _, by simp⟩

theorem append (hfirst : Paired first) (hsecond : Paired second) : Paired (first ++ second) := by
  refine ⟨?_, fun step hstep => ?_⟩
  · rw [List.filterMap_append, List.filterMap_append]
    exact hfirst.tasks.append hsecond.tasks
  · exact (List.mem_append.mp hstep).elim (hfirst.timely step) (hsecond.timely step)

theorem perm (h : Paired second) (hperm : first.Perm second) : Paired first :=
  ⟨((hperm.filterMap _).trans h.tasks).trans (hperm.filterMap _).symm,
    fun step hstep => h.timely step (hperm.subset hstep)⟩

/-- A step without a task. -/
theorem single (hawaited : step.statement.awaited? = none) (htask : step.statement.task? = none)
    (htimely : step.statement.isTimely = true) : Paired [step] :=
  ⟨by simp [hawaited, htask], by simpa using htimely⟩

/-- A step with a task, and one that waits for it. -/
theorem pair {task : String} (htask : asking.statement.task? = some task)
    (hasking : asking.statement.awaited? = none) (htimely : asking.statement.isTimely = true)
    (hwaiting : waiting.statement.awaited? = some task) : Paired [asking, waiting] := by
  have hawait : waiting.statement.task? = none ∧ waiting.statement.isTimely = true := by
    unfold Statement.awaited? at hwaiting
    split at hwaiting
    · rename_i hstatement
      rw [hstatement]
      exact ⟨rfl, rfl⟩
    · cases hwaiting
  exact ⟨by simp [htask, hasking, hwaiting, hawait.1], by simp [htimely, hawait.2]⟩

end Paired

/-! ### The parts of a derivation -/

namespace Assembly

variable {c : Settings} {scope : Scope} {env : Environment} {p : Provider} {s s' t u : State}
  {supply : Supply}

/-- The steps made from one state to another are paired. -/
def State.Pairs (s s' : State) : Prop :=
  ∃ new, s'.steps = s.steps ++ new ∧ Paired new

namespace State.Pairs

theorem same (hsteps : s'.steps = s.steps) : Pairs s s' :=
  ⟨[], hsteps.trans (List.append_nil _).symm, .nil⟩

theorem trans (h : Pairs s t) (h' : Pairs t u) : Pairs s u := by
  obtain ⟨new, hsteps, hnew⟩ := h
  obtain ⟨new', hsteps', hnew'⟩ := h'
  exact ⟨new ++ new', by rw [hsteps', hsteps, List.append_assoc], hnew.append hnew'⟩

/-- One more step, which has no task. -/
theorem afterPlain {step : Step} (hawaited : step.statement.awaited? = none)
    (htask : step.statement.task? = none) (htimely : step.statement.isTimely = true) :
    Pairs s (s.afterStep step) :=
  ⟨[step], rfl, .single hawaited htask htimely⟩

end State.Pairs

theorem AsksAccessor.pairs (h : AsksAccessor c scope env p s supply s') : State.Pairs s s' := by
  cases h with
  | @sync answers t asking _ ht hasking =>
      subst ht
      exact ⟨[asking], rfl,
        .single (by rw [hasking]; rfl) (by rw [hasking]; rfl) (by rw [hasking]; rfl)⟩
  | @async answers t asking waiting _ ht hasking hwaiting =>
      subst ht
      exact ⟨[asking, waiting], by simp [State.afterNote], .pair (by rw [hasking]; rfl)
        (by rw [hasking]; rfl) (by rw [hasking]; rfl) (by rw [hwaiting]; rfl)⟩

/-- Each way to create a value waits for the task that it hands out, if it does. -/
theorem CreatesValue.pairs {name : String} {args : List (Option String)} {needs : List Step}
    {step : Step} (h : CreatesValue scope env p name args needs s step s') : State.Pairs s s' := by
  -- Whichever step hands out a task, the await comes right behind it; a hook that hands out none, and a
  -- creation that does not suspend, add nothing to be awaited.
  cases h with
  | plain _ hasync hcreating =>
      refine .afterPlain (by rw [hcreating]; rfl) ?_ (by rw [hcreating]; rfl)
      rw [hcreating, State.draft_statement, Statement.task?_create, hasync]
      rfl
  | @awaited t creating _ hinit hasync ht hcreating hwaiting =>
      subst ht
      refine ⟨[creating, step], by simp, .pair ?_ (by rw [hcreating]; rfl) (by rw [hcreating]; rfl)
        (by rw [hwaiting]; rfl)⟩
      rw [hcreating, State.draft_statement, Statement.task?_create, hinit, hasync]
      rfl
  | @initialized creating _ _ hasync hcreating hstarting =>
      have hcreated : State.Pairs s (s.afterStep creating) := by
        refine .afterPlain (by rw [hcreating]; rfl) ?_ (by rw [hcreating]; rfl)
        rw [hcreating, State.draft_statement, Statement.task?_create, hasync]
        rfl
      exact hcreated.trans (.afterPlain (by rw [hstarting]; rfl) (by rw [hstarting]; rfl)
        (by rw [hstarting]; rfl))
  | @initializedAwaited t creating starting _ hinit _ hcreating ht hstarting hwaiting =>
      subst ht
      have hcreated : State.Pairs s (s.afterStep creating) := by
        refine .afterPlain (by rw [hcreating]; rfl) ?_ (by rw [hcreating]; rfl)
        rw [hcreating, State.draft_statement, Statement.task?_create, hinit]
        simp
      exact hcreated.trans ⟨[starting, step], by simp, .pair (by rw [hstarting]; rfl)
        (by rw [hstarting]; rfl) (by rw [hstarting]; rfl) (by rw [hwaiting]; rfl)⟩

theorem EmitsDelegate.pairs {name : String} {body : Plan} {needs : List Step} {step : Step}
    (h : EmitsDelegate scope p name body needs s step s') : State.Pairs s s' := by
  cases h with
  | plain _ hcreating =>
      exact .afterPlain (by rw [hcreating]; rfl) (by rw [hcreating]; rfl) (by rw [hcreating]; rfl)
  | @registered drain opening _ _ hopening hcreating =>
      have hopened : State.Pairs s (s.afterStep opening) :=
        .afterPlain (by rw [hopening]; rfl) (by rw [hopening]; rfl) (by rw [hopening]; rfl)
      exact hopened.trans (.afterPlain (by rw [hcreating]; rfl) (by rw [hcreating]; rfl)
        (by rw [hcreating]; rfl))

/-! ### Derivations -/

-- The steps of a body belong to a plan of their own, so here a body adds nothing.
mutual

/-- Obtaining a value makes steps in pairs: each task handed out is awaited by the step after it, and
nothing else is awaited. -/
theorem Obtains.pairs {c : Settings} {scope : Scope} {isTarget : Bool} {env : Environment}
    {p : Provider} {s s' : State} {supply : Supply} :
    Obtains c scope isTarget env p s supply s' → State.Pairs s s'
  | .atHand _ | .parameter _ => .same rfl
  | .accessor _ _ hasks => hasks.pairs
  | .delegate _ _ _ hhoists heach _ hbody hemits => by
      have hahead : State.Pairs s _ := .same hhoists.same.1
      exact ((hahead.trans heach.pairs).trans (.same hbody.same.1)).trans hemits.pairs
  | .ownedAgain _ _ ht _ hstep => by
      subst ht
      exact .afterPlain (by rw [hstep]; rfl) (by rw [hstep]; rfl) (by rw [hstep]; rfl)
  | @Obtains.owned _ _ _ _ _ _ _ _ _ _ t u v _ _ _ defining _ _ _ ht _ _ hbody hdefining _ hv
      hstep => by
      have hsteps : u.afterName.steps = s.steps := hbody.same.1.trans (by rw [ht]; rfl)
      have hdefined : State.Pairs u.afterName (u.afterName.afterStep defining) :=
        .afterPlain (by rw [hdefining]; rfl) (by rw [hdefining]; rfl) (by rw [hdefining]; rfl)
      have hfunction : State.Pairs s v := by
        rw [hv]
        exact (State.Pairs.same hsteps).trans (hdefined.trans (.same rfl))
      exact hfunction.trans (.afterPlain (by rw [hstep]; rfl) (by rw [hstep]; rfl)
        (by rw [hstep]; rfl))
  | .value _ _ _ _ heach hcreates =>
      (heach.pairs.trans hcreates.pairs).trans (.same (State.afterValue_steps _ _ _))

/-- Obtaining several values makes steps in pairs. -/
theorem ObtainsEach.pairs {c : Settings} {scope : Scope} {env : Environment}
    {requests : List Request} {s s' : State} {supplies : List (Option Supply)} :
    ObtainsEach c scope env requests s supplies s' → State.Pairs s s'
  | .nil => .same rfl
  | .supplied _ head tail => head.pairs.trans tail.pairs
  | .leftOut _ _ tail => tail.pairs

end

/-- The steps of an assembled plan are paired. -/
theorem Assembles.paired {target : Provider} {known : List (Provider.Identity × Supply)}
    {plan : Plan} (h : Assembles c scope env target known s plan s') : Paired plan.steps := by
  cases h with
  | body hobtains harranges =>
      obtain ⟨new, hsteps, hnew⟩ := hobtains.pairs
      exact hnew.perm (harranges.perm.trans (by rw [hsteps]; rfl))

end Assembly

/-! ### Plans -/

/-- In a list in which no value is found twice, the entries with a value found once are that one. -/
theorem filter_eq_singleton {α β : Type} [DecidableEq β] {f : α → Option β} {entries : List α}
    {entry : α} {value : β} (hnodup : (entries.filterMap f).Nodup) (hentry : entry ∈ entries)
    (hvalue : f entry = some value) :
    entries.filter (fun other => f other = some value) = [entry] := by
  induction entries with
  | nil => cases hentry
  | cons first rest ih =>
      rcases List.mem_cons.mp hentry with rfl | hrest
      · rw [List.filterMap_cons_some hvalue, List.nodup_cons] at hnodup
        have hnone : rest.filter (fun other => f other = some value) = [] :=
          List.filter_eq_nil_iff.mpr fun other hother heq =>
            hnodup.1 (List.mem_filterMap.mpr ⟨other, hother, of_decide_eq_true heq⟩)
        simp [hvalue, hnone]
      · have hfirst : f first ≠ some value := by
          intro heq
          rw [List.filterMap_cons_some heq, List.nodup_cons] at hnodup
          exact hnodup.1 (List.mem_filterMap.mpr ⟨entry, hrest, hvalue⟩)
        have htail : (rest.filterMap f).Nodup :=
          hnodup.sublist ((List.sublist_cons_self first rest).filterMap f)
        simpa [hfirst] using ih htail hrest

/-- If nothing is found twice, neither is what is found less often. -/
theorem nodup_filterMap_of_imp {α β : Type} {f g : α → Option β} {entries : List α}
    (hnodup : (entries.filterMap f).Nodup) (h : ∀ entry value, g entry = some value →
      f entry = some value) : (entries.filterMap g).Nodup :=
  List.pairwise_filterMap.mpr ((List.pairwise_filterMap.mp hnodup).imp fun hne value hfirst value'
    hsecond => hne value (h _ _ hfirst) value' (h _ _ hsecond))

namespace Statement

variable {statement : Statement} {task : String}

theorem assigned?_of_task (h : statement.task? = some task) : statement.assigned? = some task := by
  unfold task? at h
  split at h
  · exact h
  · cases h

theorem assigned?_of_declared (h : statement.declared? = some task) :
    statement.assigned? = some task := by
  obtain ⟨⟨name, ty⟩, hdeclaration, rfl⟩ := Option.map_eq_some_iff.mp h
  exact assigned?_of_declaration hdeclaration

theorem task?_of_givesTask (h : statement.givesTask = true) :
    statement.task? = statement.assigned? := by
  rw [task?, if_pos h]

/-- The variable of a task is declared with the type of one. -/
theorem declaration_of_task (h : statement.task? = some task) :
    ∃ ty, statement.declaration? = some ⟨task, ty⟩ ∧ ty.IsTask := by
  cases statement with
  | single name p isAsync =>
      cases isAsync with
      | false => cases h
      | true => cases h; exact ⟨_, rfl, .inr ⟨_, rfl⟩⟩
  | create name p args =>
      rw [task?_create] at h
      split at h
      · rename_i hholds
        cases h
        exact ⟨_, by rw [declaration?, if_pos hholds], .inr ⟨_, rfl⟩⟩
      · cases h
  | start task? name isAsync =>
      cases task? with
      | none => cases h
      | some task => cases h; exact ⟨_, rfl, .inl rfl⟩
  | delegate | registry | ownedFunction | owned | await => cases h

end Statement

/-- The creation of a hooked value suspends just if it hands out a task. -/
theorem Statement.suspends_create {name : String} {p : Provider} {args : List (Option String)}
    (hcreated : p.isCreated = true) (hhooked : p.IsHooked) :
    (Statement.create name p args).suspends = (p.isAsync && !p.isInitialized) := by
  -- The two differ on a constructor that suspends without a hook to do so in, and on a decorator of
  -- that kind: `hhooked` excludes both. A factory and a function have no hook.
  cases p with
  | construct site rule =>
      change false = (rule.isAsync && !rule.initialized)
      cases hasync : rule.isAsync with
      | false => rfl
      | true => rw [hhooked hasync]; rfl
  | decorated site decorator inner =>
      change (decorator.kind = .function && decorator.isAsync) =
        (decorator.isAsync && !decorator.isInitialized)
      cases hasync : decorator.isAsync with
      | false => simp
      | true =>
          unfold Decorator.isInitialized
          cases hkind : decorator.kind with
          | function => rfl
          | construction ty initialized =>
              have hinitialized : initialized = true := by
                have := (hhooked hasync).resolve_left (by rw [hkind]; exact DecoratorKind.noConfusion)
                rwa [Decorator.isInitialized, hkind] at this
              rw [hinitialized]
              rfl
  | factory | call =>
      change _ = (_ && !false)
      rw [Bool.not_false, Bool.and_true]
      rfl
  | held | array | forwarded => rfl
  | parameter | delegate | owned => cases hcreated

namespace Assembly

variable {c : Settings} {env : Environment} {root plan : Plan} {around : List (Plan × Step)} {τ : Setup}

/-- A step of known origin suspends just if it hands out a task. -/
theorem Setup.Origin.suspends_eq {σ : Setup} {steps : List Step} {step : Step}
    (h : σ.Origin c steps step) (hamong : ∀ p, σ.among p → p.IsHooked)
    (htimely : step.statement.isTimely = true) :
    step.statement.suspends = step.statement.task?.isSome := by
  cases h with
  | @asks name p isAsync hstatement =>
      rw [hstatement]
      cases isAsync <;> rfl
  | creates hstatement _ _ _ _ _ _ hp hcreated =>
      rw [hstatement, Statement.suspends_create hcreated (hamong _ hp), Statement.task?_create]
      split <;> simp_all
  | @starts task name isAsync _ hstatement =>
      rw [hstatement] at htimely ⊢
      rw [show isAsync = task.isSome from eq_of_beq htimely]
      cases task <;> rfl
  | opens hstatement | awaits hstatement | delegates hstatement | defines hstatement
  | calls hstatement => rw [hstatement]; rfl

/-- Tasks pair up in a plan in the tree, if constructors suspend in hooks only: each step that suspends
hands out a task, which one later step waits for. -/
theorem Embedded.pairsTasks {scheduler : Scheduler} {isAsync : Bool} {A : Surroundings} {lo hi : Nat}
    (h : Embedded c Provider.IsHooked env root around plan τ)
    (hplanned : Planned scheduler isAsync A lo plan hi) (hA : A.Sound lo) : plan.PairsTasks := by
  obtain ⟨target, hassembles, -⟩ := h.assembled
  have hpaired := hassembles.paired
  have hassigned := h.distinct.assigned h.within
  have htasks : (plan.steps.filterMap fun step => step.statement.task?).Nodup :=
    nodup_filterMap_of_imp hassigned fun _ _ => Statement.assigned?_of_task
  have hsuspends : ∀ step ∈ plan.steps, step.statement.suspends = step.statement.task?.isSome :=
    fun step hstep => (h.origin hstep).suspends_eq (fun p hp => h.among ▸ hp)
      (hpaired.timely step hstep)
  -- Whoever waits for a task needs the step that hands it out.
  have hmaker : ∀ waiting ∈ plan.steps, ∀ task, waiting.statement.awaited? = some task →
      ∃ maker ∈ plan.steps, maker.statement.task? = some task ∧ waiting.needs = [maker] := by
    intro waiting hwaiting task hawaited
    cases h.origin hwaiting with
    | awaits hstatement hmaker hneeds htask hgives =>
        rw [hstatement] at hawaited
        cases hawaited
        exact ⟨_, hmaker, (Statement.task?_of_givesTask hgives).trans htask, hneeds⟩
    | asks hstatement | opens hstatement | creates hstatement | starts hstatement
    | delegates hstatement | defines hstatement | calls hstatement =>
        rw [hstatement] at hawaited
        cases hawaited
  -- The tasks handed out and those awaited are the same, one by one. So a step that suspends finds the
  -- await of its task, and there is no second one, since no two steps assign one name.
  refine ⟨fun step hstep hsuspending => ?_, fun waiting hwaiting task hawaited => ?_⟩
  · rw [hsuspends step hstep] at hsuspending
    obtain ⟨task, htask⟩ := Option.isSome_iff_exists.mp hsuspending
    obtain ⟨ty, hdeclaration, hty⟩ := Statement.declaration_of_task htask
    obtain ⟨waiting, hwaiting, hawaited⟩ := List.mem_filterMap.mp
      (hpaired.tasks.symm.subset (List.mem_filterMap.mpr ⟨step, hstep, htask⟩))
    obtain ⟨maker, hmaker, hmade, hneeds⟩ := hmaker waiting hwaiting task hawaited
    obtain rfl := h.eq_of_assigned hmaker hstep (Statement.assigned?_of_task hmade)
      (Statement.assigned?_of_task htask)
    have hneed : maker ∈ waiting.needs := by
      rw [hneeds]
      exact List.mem_singleton_self _
    have hdepends : waiting.DependsOn maker := ⟨maker, hneed, .refl _⟩
    exact ⟨task, ty, waiting, hdeclaration, hty,
      filter_eq_singleton (hpaired.tasks.nodup_iff.mpr htasks) hwaiting hawaited, hneed,
      hplanned.precedes hA hwaiting hmaker (.need hneed (.refl _)) hdepends.ne⟩
  · obtain ⟨maker, hmaker, hmade, -⟩ := hmaker waiting hwaiting task hawaited
    obtain ⟨ty, hdeclaration, -⟩ := Statement.declaration_of_task hmade
    have hdeclared : maker.statement.declared? = some task := by
      rw [Statement.declared?, hdeclaration]
      rfl
    exact ⟨maker, filter_eq_singleton (nodup_filterMap_of_imp hassigned fun _ _ =>
      Statement.assigned?_of_declared) hmaker hdeclared, by rw [hsuspends maker hmaker, hmade]; rfl⟩

end Assembly

/-- In a container declared without providers given in full, with decorators as they are built, tasks
pair up in every plan of the tree of a plan, whatever was looked up and wherever inside. -/
theorem planResolution_pairsTasks (config : Config) (trigger : Trigger) (ds : Declarations)
    (hds : ds.Composed) (hbuilt : ∀ d ∈ ds.decorators, d.Built) (env : Environment)
    (hinside : ds.build.Inside env) (ty : Ty) (found target : Provider)
    (hfound : env.lookup ty = some found) (hheld : found.Holds target) (isAsync : Bool) (plan : Plan)
    (h : planResolution config trigger env isAsync target = .ok plan)
    (around : List (Plan × Step)) (nested : Plan) (hwithin : plan.Within around nested) :
    nested.PairsTasks := by
  have hparameter : ∀ param name depth,
      (Provider.parameter param name depth).IsHookedThroughout :=
    fun param name depth => .of_parts trivial (by simp [Provider.parts])
  have hresolve : ∀ ty p, env.catalog.resolve ty = .found p → p.IsHookedThroughout :=
    fun ty p hp => hds.resolve_hooked hbuilt (hinside.catalog ▸ hp)
  -- Where the target was found, outer frames bind parameters only, so that all that is met below it
  -- comes from the declarations, or is a parameter or a part of such a provider.
  have hframes := hinside.bindsParameters (.root ds.build)
  have hthroughout : (Place.mk env true (Environment.given target)).Within
      Provider.IsHookedThroughout := by
    refine Place.within_of_bindsParameters hparameter hresolve
      (fun p q hp hq => hp.holds (.part hq (.refl _))) hframes fun p hp => ?_
    cases hp
    exact (hframes.among_of_lookup hparameter hresolve hfound).holds hheld
  have hbelow : (Place.mk env true (Environment.given target)).Within Provider.IsHooked :=
    fun y hy p hp => (hthroughout y hy p hp).self
  obtain ⟨τ, hembedded⟩ := Assembly.planResolution_embedded h hbelow hwithin
  obtain ⟨n, hplanned⟩ := Assembly.planResolution_planned h
  obtain ⟨A, lo, hi, hnested, hA, -⟩ := hplanned.within (Surroundings.sound_empty _ _ _) hwithin
  exact hembedded.pairsTasks hnested hA

/-- A singleton, an initialization, a factory, a function and decorators of both kinds, all of which
suspend. -/
theorem planResolution_pairsTasks_kinds :
    let a : Ty := .plain "A"
    let b : Ty := .plain "B"
    let d : Ty := .plain "D"
    let f : Ty := .plain "F"
    let g : Ty := .plain "G"
    let m : Ty := .plain "M"
    let r : Ty := .plain "R"
    let needs (tys : List Ty) : List Parameter := tys.map fun ty => ⟨"", 0, ty, false⟩
    let ds := (({} : Declarations).addConstructor (.new a []) .single { isAsync := true })
      |>.addConstructor (.new b []) .resolution { isAsync := true }
      |>.addFactory (.new m []) .resolution f .dependency { isAsync := true }
      |>.addFunction (.function m "make" [] g) .dependency { isAsync := true }
      |>.addDecorator (Decorator.construction (.new d (needs [b])) b 0).withAsync
      |>.addDecorator (Decorator.function (.function m "wrap" (needs [g]) g) 0).withAsync
      |>.addConstructor (.new r (needs [a, b, f, g])) .resolution {}
    ∃ target plan, ds.Composed ∧ (∀ d ∈ ds.decorators, d.Built) ∧
      ds.build.lookup r = some target ∧ planResolution {} .never ds.build true target = .ok plan ∧
      (plan.steps.filterMap fun step => step.statement.awaited?) =
        ["b_0_5", "g_0_12", "a_0_1", "b_0_6", "f_0_9", "g_0_13"] ∧
      ∀ around nested, plan.Within around nested → nested.PairsTasks := by
  intro a b d f g m r needs ds
  have hds : ds.Composed :=
    .constructor (.decorator (.decorator (.function (.factory (.constructor (.constructor .empty
      _ _ _) _ _ _) _ _ _ _ _) _ _ _) _) _) _ _ _
  have hbuilt : ∀ d ∈ ds.decorators, d.Built := by
    have hdecorators : ds.decorators = [(Decorator.construction (.new d (needs [b])) b 0).withAsync,
        (Decorator.function (.function m "wrap" (needs [g]) g) 0).withAsync] := by cbv
    rw [hdecorators]
    simp only [List.mem_cons, List.not_mem_nil, or_false, forall_eq_or_imp, forall_eq]
    exact ⟨.withAsync (.construction _ _ _), .withAsync (.function _ _)⟩
  have hsummary : ((ds.build.lookup r).bind fun target =>
      (planResolution {} .never ds.build true target).toOption).map (fun plan =>
        plan.steps.filterMap fun step => step.statement.awaited?) =
          some ["b_0_5", "g_0_12", "a_0_1", "b_0_6", "f_0_9", "g_0_13"] := by cbv
  obtain ⟨plan, hplan, htasks⟩ := Option.map_eq_some_iff.mp hsummary
  obtain ⟨target, hlookup, hok⟩ := Option.bind_eq_some_iff.mp hplan
  have hok := Run.ok_of_toOption hok
  exact ⟨target, plan, hds, hbuilt, hlookup, hok, htasks,
    planResolution_pairsTasks _ _ ds hds hbuilt _ .start r target target hlookup (.refl _) true plan
      hok⟩

end Wiring
