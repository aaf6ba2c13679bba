import Wiring.Plan.Assembly
import Wiring.Proofs.Run

/-!
# Running a part of the assembly

The assembly is written as a program over a state. This module says what its small parts do to the
state, so that nothing later unfolds them.

* `atHand?_run`, `newVariable_run`, `emit_run`, `note_run` — what each primitive leaves behind.
* `askAccessor_ok`, `createValue_ok`, `emitDelegate_ok` — the steps that the composite parts emit,
  and the state afterwards.
-/

namespace Wiring.Assembly

open Run

variable {α β : Type}

/-! ### Primitives -/

theorem checkpoint_ok {c : Settings} {s s' : State} (h : checkpoint c s = .ok () s') : s' = s := by
  unfold checkpoint at h
  split at h
  · exact absurd h throw_ok
  · exact (pure_ok.mp h).2.symm

theorem exhausted_ok {c : Settings} {a : α} {s s' : State} : ¬ exhausted c s = .ok a s' := by
  intro h
  obtain ⟨_, t, _, h⟩ := bind_ok.mp h
  exact throw_ok h

/-- The value at hand, read off the values obtained. -/
def atHand (scope : Scope) (p : Provider) (obtained : List (Provider.Identity × Supply)) :
    Option Supply :=
  (if p.lifetime.isShared then
      (obtained.find? fun entry => entry.1 = p.identity).map (·.2) else none).or
    (if p.isDelegate then
      (scope.around.find? fun entry => entry.1 = p.identity).map fun entry => ⟨entry.2, none⟩
      else none)

theorem noted?_run (p : Provider) (s : State) :
    noted? p s = .ok ((s.obtained.find? fun entry => entry.1 = p.identity).map (·.2)) s := rfl

theorem atHand?_run (scope : Scope) (p : Provider) (s : State) :
    atHand? scope p s = .ok (atHand scope p s.obtained) s := by
  unfold atHand? atHand
  by_cases hshared : p.lifetime.isShared = true
  · simp only [hshared, if_true]
    change EStateM.bind (noted? p) _ s = _
    unfold EStateM.bind
    rw [noted?_run]
    cases (s.obtained.find? fun entry => entry.1 = p.identity).map (·.2) with
    | none => cases p.isDelegate <;> rfl
    | some supply => cases p.isDelegate <;> rfl
  · simp only [hshared]
    cases p.isDelegate <;> rfl

/-- The variable named by a number. -/
def variableName (ty : Ty) (env : Environment) (n : Nat) : String :=
  ty.identifier ++ "_" ++ toString env.depth ++ "_" ++ toString n

/-- The state after one more name. -/
def State.afterName (s : State) : State := { s with named := s.named + 1 }

theorem newVariable_run (ty : Ty) (env : Environment) (s : State) :
    newVariable ty env s = .ok (variableName ty env s.named) s.afterName := rfl

theorem newVariable_ok {ty : Ty} {env : Environment} {s s' : State} {name : String}
    (h : newVariable ty env s = .ok name s') :
    variableName ty env s.named = name ∧ s.afterName = s' := by
  cases h
  exact ⟨rfl, rfl⟩

/-- The function named by a number. -/
def functionName (ty : Ty) (n : Nat) : String :=
  "create_" ++ ty.identifier ++ "_" ++ toString n

/-- The step with the next number. -/
def State.draft (s : State) (scope : Scope) (statement : Statement) (release : Option Release)
    (needs : List Step) : Step where
  id := s.numbered
  statement := statement
  release := release
  needs := needs
  releasable := release.any fun r => !r.isAsync || scope.isAsync

/-- The state after a step. -/
def State.afterStep (s : State) (step : Step) : State :=
  { s with numbered := s.numbered + 1, steps := s.steps ++ [step] }

/-- The state once a value is noted. -/
def State.afterNote (s : State) (p : Provider) (supply : Supply) : State :=
  { s with obtained := (p.identity, supply) :: s.obtained }

/-- The state with other answers. -/
def State.withAnswers (s : State) (answers : Survey.Answers) : State := { s with answers }

section

variable {s : State} {scope : Scope} {statement : Statement} {release : Option Release}
  {needs : List Step} {step : Step} {answers : Survey.Answers}

@[simp] theorem State.draft_id : (s.draft scope statement release needs).id = s.numbered := rfl

@[simp] theorem State.draft_statement :
    (s.draft scope statement release needs).statement = statement := rfl

@[simp] theorem State.draft_needs : (s.draft scope statement release needs).needs = needs := rfl

@[simp] theorem State.afterName_numbered : s.afterName.numbered = s.numbered := rfl

@[simp] theorem State.afterName_steps : s.afterName.steps = s.steps := rfl

@[simp] theorem State.afterName_obtained : s.afterName.obtained = s.obtained := rfl

@[simp] theorem State.withAnswers_numbered : (s.withAnswers answers).numbered = s.numbered := rfl

@[simp] theorem State.withAnswers_steps : (s.withAnswers answers).steps = s.steps := rfl

@[simp] theorem State.withAnswers_obtained : (s.withAnswers answers).obtained = s.obtained := rfl

@[simp] theorem State.afterStep_numbered : (s.afterStep step).numbered = s.numbered + 1 := rfl

@[simp] theorem State.afterStep_steps : (s.afterStep step).steps = s.steps ++ [step] := rfl

@[simp] theorem State.afterStep_obtained : (s.afterStep step).obtained = s.obtained := rfl

end

theorem suspends_ok {c : Settings} {p : Provider} {s s' : State} {answer : Bool}
    (h : suspends c p s = .ok answer s') :
    ∃ answers, Survey.suspendsWith c.maxDepth c.trigger c.container p s.answers =
        .ok (answer, answers) ∧ s' = s.withAnswers answers := by
  unfold suspends at h
  rw [get_bind] at h
  cases heq : Survey.suspendsWith c.maxDepth c.trigger c.container p s.answers with
  | error e =>
      rw [heq] at h
      exact absurd h throw_ok
  | ok found =>
      rw [heq] at h
      obtain ⟨rfl, rfl⟩ := pure_ok.mp h
      exact ⟨found.2, rfl, rfl⟩

theorem singletonsAhead_ok {c : Settings} {env : Environment} {p : Provider} {s s' : State}
    {ahead : List Provider} (h : singletonsAhead c env p s = .ok ahead s') :
    ∃ answers, Survey.singletonsAhead c.maxDepth c.trigger env p s.answers =
        .ok (ahead, answers) ∧ s' = s.withAnswers answers := by
  unfold singletonsAhead at h
  rw [get_bind] at h
  cases heq : Survey.singletonsAhead c.maxDepth c.trigger env p s.answers with
  | error e =>
      rw [heq] at h
      exact absurd h throw_ok
  | ok found =>
      rw [heq] at h
      obtain ⟨rfl, rfl⟩ := pure_ok.mp h
      exact ⟨found.2, rfl, rfl⟩

/-! ### What the composite parts emit -/

/-- Asking for a singleton at its accessor: one step, or two where the accessor suspends. The value
is noted. -/
inductive AsksAccessor (c : Settings) (scope : Scope) (env : Environment) (p : Provider)
    (s : State) : Supply → State → Prop
  | sync {answers : Survey.Answers} {t : State} {asking : Step}
      (hanswer : Survey.suspendsWith c.maxDepth c.trigger c.container p s.answers =
        .ok (false, answers))
      (ht : t = s.afterName.withAnswers answers)
      (hasking : asking = t.draft scope (.single (variableName p.ty env s.named) p false) none []) :
      AsksAccessor c scope env p s ⟨variableName p.ty env s.named, some asking⟩
        ((t.afterStep asking).afterNote p ⟨variableName p.ty env s.named, some asking⟩)
  | async {answers : Survey.Answers} {t : State} {asking waiting : Step}
      (hanswer : Survey.suspendsWith c.maxDepth c.trigger c.container p s.answers =
        .ok (true, answers))
      (ht : t = (s.afterName.withAnswers answers).afterName)
      (hasking : asking = t.draft scope (.single (variableName p.ty env s.named) p true) none [])
      (hwaiting : waiting = (t.afterStep asking).draft scope
        (.await (some (variableName p.ty env (s.named + 1))) (variableName p.ty env s.named)
          (some p.ty)) none [asking]) :
      AsksAccessor c scope env p s ⟨variableName p.ty env (s.named + 1), some waiting⟩
        (((t.afterStep asking).afterStep waiting).afterNote p
          ⟨variableName p.ty env (s.named + 1), some waiting⟩)

theorem askAccessor_ok {c : Settings} {scope : Scope} {env : Environment} {p : Provider}
    {s s' : State} {supply : Supply} (h : askAccessor c scope env p s = .ok supply s') :
    AsksAccessor c scope env p s supply s' := by
  unfold askAccessor at h
  obtain ⟨name, s₁, hname, h⟩ := bind_ok.mp h
  obtain ⟨rfl, rfl⟩ := newVariable_ok hname
  obtain ⟨answer, s₂, hsuspends, h⟩ := bind_ok.mp h
  obtain ⟨answers, hanswer, rfl⟩ := suspends_ok hsuspends
  cases answer with
  | true =>
      cases h
      exact .async hanswer rfl rfl rfl
  | false =>
      cases h
      exact .sync hanswer rfl rfl

/-- Creating a value: the creation, and behind it the initialization and the wait that the provider
asks for. The last step provides the value. -/
inductive CreatesValue (scope : Scope) (env : Environment) (p : Provider) (name : String)
    (args : List (Option String)) (needs : List Step) (s : State) : Step → State → Prop
  | plain {creating : Step} (hinit : p.isInitialized = false) (hasync : p.isAsync = false)
      (hcreating : creating =
        s.draft scope (.create name p args) (creationRelease scope p args name) needs) :
      CreatesValue scope env p name args needs s creating (s.afterStep creating)
  | awaited {t : State} {creating waiting : Step} (hinit : p.isInitialized = false)
      (hasync : p.isAsync = true) (ht : t = s.afterName)
      (hcreating : creating = t.draft scope (.create (variableName p.ty env s.named) p args)
        (creationRelease scope p args name) needs)
      (hwaiting : waiting = (t.afterStep creating).draft scope
        (.await (some name) (variableName p.ty env s.named) (some p.ty)) none [creating]) :
      CreatesValue scope env p name args needs s waiting
        ((t.afterStep creating).afterStep waiting)
  | initialized {creating starting : Step} (hinit : p.isInitialized = true)
      (hasync : p.isAsync = false)
      (hcreating : creating =
        s.draft scope (.create name p args) (creationRelease scope p args name) needs)
      (hstarting : starting =
        (s.afterStep creating).draft scope (.start none name false) none [creating]) :
      CreatesValue scope env p name args needs s starting
        ((s.afterStep creating).afterStep starting)
  | initializedAwaited {t : State} {creating starting waiting : Step}
      (hinit : p.isInitialized = true) (hasync : p.isAsync = true)
      (hcreating : creating =
        s.draft scope (.create name p args) (creationRelease scope p args name) needs)
      (ht : t = (s.afterStep creating).afterName)
      (hstarting : starting = t.draft scope
        (.start (some (variableName p.ty env s.named)) name true) none [creating])
      (hwaiting : waiting = (t.afterStep starting).draft scope
        (.await none (variableName p.ty env s.named) none) none [starting]) :
      CreatesValue scope env p name args needs s waiting
        ((t.afterStep starting).afterStep waiting)

theorem createValue_ok {scope : Scope} {env : Environment} {p : Provider} {name : String}
    {args : List (Option String)} {needs : List Step} {s s' : State} {step : Step}
    (h : createValue scope env p name args needs s = .ok step s') :
    CreatesValue scope env p name args needs s step s' := by
  unfold createValue at h
  by_cases hinit : p.isInitialized = true <;> by_cases hasync : p.isAsync = true
  · simp only [hinit, hasync, if_true] at h
    cases h
    exact .initializedAwaited hinit hasync rfl rfl rfl rfl
  · simp only [hinit, hasync, if_true] at h
    cases h
    exact .initialized hinit (by simpa using hasync) rfl rfl
  · simp only [hinit, hasync, if_true] at h
    cases h
    exact .awaited (by simpa using hinit) hasync rfl rfl rfl
  · simp only [hinit, hasync] at h
    cases h
    exact .plain (by simpa using hinit) (by simpa using hasync) rfl

/-- Creating a delegate around its body: the creation, and before it that of the registry if the
body creates anything to release. -/
inductive EmitsDelegate (scope : Scope) (p : Provider) (name : String) (body : Plan)
    (needs : List Step) (s : State) : Step → State → Prop
  | plain {creating : Step} (hrelease : bodyRelease scope body (name ++ "_disposeActions") = none)
      (hcreating : creating =
        s.draft scope (.delegate name p body (name ++ "_disposeActions")) none needs) :
      EmitsDelegate scope p name body needs s creating (s.afterStep creating)
  | registered {drain : Release} {opening creating : Step}
      (hrelease : bodyRelease scope body (name ++ "_disposeActions") = some drain)
      (hopening : opening =
        s.draft scope (.registry (name ++ "_disposeActions") drain.isAsync) none [])
      (hcreating : creating = (s.afterStep opening).draft scope
        (.delegate name p body (name ++ "_disposeActions")) (some drain) (needs ++ [opening])) :
      EmitsDelegate scope p name body needs s creating ((s.afterStep opening).afterStep creating)

/-- The scope of a delegate's body. -/
def Scope.ofDelegate (scope : Scope) (p : Provider) (isAsync : Bool) (name : String) : Scope where
  asyncRelease := scope.asyncRelease
  isAsync := isAsync
  around := (p.identity, name) :: scope.around
  accessorOf? := none

/-- The scope of an owned value's body. -/
def Scope.ofOwned (scope : Scope) (isAsync : Bool) : Scope where
  asyncRelease := isAsync
  isAsync := isAsync
  around := scope.around
  accessorOf? := none

/-- The values a body starts with. -/
def State.singletons (s : State) : List (Provider.Identity × Supply) :=
  s.obtained.filter fun entry => entry.1.lifetime = .single

theorem assembleBody_ok {nested : AssembleBody} {scope : Scope} {env : Environment} {ty : Ty}
    {s s' : State} {body : Plan} (h : assembleBody nested scope env ty s = .ok body s') :
    ∃ target, env.lookup ty = some target ∧
      nested scope env target s.singletons s = .ok body s' := by
  unfold assembleBody at h
  cases hlookup : env.lookup ty with
  | none =>
      rw [hlookup] at h
      exact absurd h throw_ok
  | some target =>
      rw [hlookup] at h
      exact ⟨target, rfl, h⟩

theorem createDelegate_ok {nested : AssembleBody} {scope : Scope} {env : Environment}
    {p : Provider} {result : Ty} {isAsync : Bool} {name : String} {needs : List Step}
    {s s' : State} {step : Step}
    (h : createDelegate nested scope env p result isAsync name needs s = .ok step s') :
    ∃ target body t, env.lookup result = some target ∧
      nested (scope.ofDelegate p isAsync name) env target s.singletons s = .ok body t ∧
      EmitsDelegate scope p name body needs t step s' := by
  unfold createDelegate at h
  obtain ⟨body, t, hbody, h⟩ := bind_ok.mp h
  obtain ⟨target, hlookup, hnested⟩ := assembleBody_ok hbody
  refine ⟨target, body, t, hlookup, hnested, ?_⟩
  cases hrelease : bodyRelease scope body (name ++ "_disposeActions") with
  | none =>
      simp only [hrelease] at h
      cases h
      exact .plain hrelease rfl
  | some drain =>
      simp only [hrelease] at h
      cases h
      exact .registered hrelease rfl rfl

theorem createOwned_ok {nested : AssembleBody} {scope : Scope} {env : Environment} {p : Provider}
    {value : Ty} {isAsync : Bool} {name : String} {s s' : State} {step : Step}
    (h : createOwned nested scope env p value isAsync name s = .ok step s') :
    ∃ function t,
      ((s.obtained.find? fun entry => entry.1 = p.identity).map (·.2) = some function ∧ t = s ∨
        ∃ target body u defining,
          (s.obtained.find? fun entry => entry.1 = p.identity).map (·.2) = none ∧
          env.lookup value = some target ∧
          nested (scope.ofOwned isAsync) env target s.singletons s = .ok body u ∧
          defining = u.afterName.draft scope
            (.ownedFunction (functionName p.ty u.named) p scope.isAsync body) none [] ∧
          function = ⟨functionName p.ty u.named, some defining⟩ ∧
          t = (u.afterName.afterStep defining).afterNote p function) ∧
      step = t.draft scope (.owned name p scope.isAsync function.name) none
        function.step?.toList ∧
      s' = t.afterStep step := by
  unfold createOwned at h
  obtain ⟨found, s₁, hfound, h⟩ := bind_ok.mp h
  rw [noted?_run] at hfound
  cases hfound
  -- The function was defined for an earlier value, or its body is assembled now.
  cases hnoted : (s.obtained.find? fun entry => entry.1 = p.identity).map (·.2) with
  | some function =>
      rw [hnoted] at h
      cases h
      exact ⟨function, s, .inl ⟨rfl, rfl⟩, rfl, rfl⟩
  | none =>
      rw [hnoted] at h
      obtain ⟨body, u, hbody, h⟩ := bind_ok.mp h
      obtain ⟨target, hlookup, hnested⟩ := assembleBody_ok hbody
      cases h
      exact ⟨_, _, .inr ⟨target, body, u, _, rfl, hlookup, hnested, rfl, rfl, rfl⟩, rfl, rfl⟩

end Wiring.Assembly
