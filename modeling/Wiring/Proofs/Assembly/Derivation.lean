import Wiring.Proofs.Assembly.Run

/-!
# Derivations of plans

A successful assembly leaves a derivation behind: an object that says, call by call, how the value
of each provider was obtained. Budgets, errors and cancellation are gone from it, so what holds of
every assembled plan is proved by recursion on derivations, one case for each way of obtaining a
value.

* `Provider.HasBody` — the two kinds of providers whose value comes from a body; both are entered and
  asked for in one way.
* `Obtains c scope isTarget env p s supply s'` — the value of `p`, requested in `env`, was obtained
  as `supply`, and the state went from `s` to `s'`.
* `ObtainsEach` — the same for a list of requests, in order.
* `Assembles` — the plan of a body.
* `assemble_sound` — every successful assembly has a derivation.
-/

namespace Wiring

/-- Whether the value is made by one creation with arguments. The other kinds of providers hand on a
variable or have a body. -/
def Provider.isCreated : Provider → Bool
  | .parameter .. | .delegate .. | .owned .. => false
  | _ => true

/-- The provider has a body, and the body produces a value of the given type. -/
inductive Provider.HasBody (p : Provider) (value : Ty) : Prop
  | delegate {ty : Ty} {params : List Parameter} {isAsync : Bool}
      (hp : p = .delegate ty value params isAsync) : HasBody p value
  | owned {ty : Ty} {isAsync : Bool} (hp : p = .owned ty value isAsync) : HasBody p value

namespace Provider.HasBody

variable {p : Provider} {value : Ty}

/-- What has a body is created where it is asked for. -/
theorem not_single (h : p.HasBody value) : p.lifetime ≠ .single := by
  cases h with
  | delegate hp => rw [hp]; exact Lifetime.noConfusion
  | owned hp => rw [hp]; exact Lifetime.noConfusion

/-- The value of the body is all that is requested. -/
theorem requests (h : p.HasBody value) (env : Environment) :
    env.requests p = [env.request value] := by
  cases h with
  | delegate hp => rw [hp]; rfl
  | owned hp => rw [hp]; rfl

theorem request_mem (h : p.HasBody value) (env : Environment) :
    env.request value ∈ env.requests p :=
  h.requests env ▸ List.mem_singleton_self _

/-- A body puts one frame on top. -/
theorem depth_enter (h : p.HasBody value) (env : Environment) :
    (env.enter p).depth = env.depth + 1 := by
  cases h with
  | delegate hp => rw [hp]; rfl
  | owned hp => rw [hp]; rfl

end Provider.HasBody

namespace Assembly

open Run

/-! ### States around a body -/

/-- The state in which a body starts. -/
def State.forBody (s : State) (known : List (Provider.Identity × Supply)) : State :=
  { s with obtained := known, steps := [] }

/-- The state after a body, back in the plan around it. -/
def State.afterBody (outer t : State) : State :=
  { t with obtained := outer.obtained, steps := outer.steps }

/-- The state once a value was obtained: it is noted if it is shared. -/
def State.afterValue (s : State) (p : Provider) (supply : Supply) : State :=
  if p.lifetime.isShared then s.afterNote p supply else s

/-- The singletons obtained before a delegate is created: those its body needs that suspend, where
the delegate itself cannot wait but the plan around it can. -/
def Hoists (c : Settings) (scope : Scope) (env : Environment) (p : Provider) (isAsync : Bool)
    (s : State) (ahead : List Provider) (s' : State) : Prop :=
  if scope.isAsync && !isAsync then
    ∃ answers, Survey.singletonsAhead c.maxDepth c.trigger env p s.answers = .ok (ahead, answers) ∧
      s' = s.withAnswers answers
  else ahead = [] ∧ s' = s

namespace Hoists

variable {c : Settings} {scope : Scope} {env : Environment} {p : Provider} {isAsync : Bool}
  {s s' : State} {ahead : List Provider}

/-- Either a survey has looked for singletons, or there are none ahead. -/
theorem surveyed (h : Hoists c scope env p isAsync s ahead s') :
    (∃ answers, Survey.singletonsAhead c.maxDepth c.trigger env p s.answers = .ok (ahead, answers) ∧
      s' = s.withAnswers answers) ∨ ahead = [] ∧ s' = s := by
  unfold Hoists at h
  split at h
  · exact .inl h
  · exact .inr h

/-- What is ahead was found by a survey. -/
theorem found (h : Hoists c scope env p isAsync s ahead s') {q : Provider} (hq : q ∈ ahead) :
    ∃ answers, Survey.singletonsAhead c.maxDepth c.trigger env p s.answers = .ok (ahead, answers) := by
  obtain ⟨answers, hahead, -⟩ | ⟨rfl, -⟩ := h.surveyed
  · exact ⟨answers, hahead⟩
  · cases hq

/-- Looking for singletons ahead changes nothing but the answers. -/
theorem same (h : Hoists c scope env p isAsync s ahead s') :
    s'.steps = s.steps ∧ s'.numbered = s.numbered ∧ s'.obtained = s.obtained := by
  obtain ⟨answers, -, rfl⟩ | ⟨-, rfl⟩ := h.surveyed
  · exact ⟨rfl, rfl, rfl⟩
  · exact ⟨rfl, rfl, rfl⟩

end Hoists

/-- What holds of providers at hand holds of what satisfies the requests of them. -/
theorem forall_given {holds : Provider → Prop} {ahead : List Provider} (h : ∀ q ∈ ahead, holds q) :
    ∀ r ∈ ahead.map Environment.given, ∀ q, r.provider? = some q → holds q := by
  intro r hr q hq
  obtain ⟨_, hmem, rfl⟩ := List.mem_map.mp hr
  cases hq
  exact h _ hmem

/-- The steps behind the supplies. -/
def stepsOf (supplies : List (Option Supply)) : List Step :=
  supplies.filterMap fun supply => supply.bind Supply.step?

/-- The variables of the supplies. -/
def namesOf (supplies : List (Option Supply)) : List (Option String) :=
  supplies.map fun supply => supply.map Supply.name

/-! ### Derivations -/

mutual

/-- How the value of a provider was obtained, with one constructor for each way: at hand already, at an
accessor, by kind. What is proved of assembled plans is proved by induction on it, so that nothing else
looks into the assembly. -/
inductive Obtains (c : Settings) :
    Scope → Bool → Environment → Provider → State → Supply → State → Prop
  /-- It was at hand. -/
  | atHand {scope : Scope} {isTarget : Bool} {env : Environment} {p : Provider} {s : State}
      {supply : Supply} (hhand : atHand scope p s.obtained = some supply) :
      Obtains c scope isTarget env p s supply s
  /-- The accessor of the singleton was asked. -/
  | accessor {scope : Scope} {isTarget : Bool} {env : Environment} {p : Provider} {s s' : State}
      {supply : Supply} (hhand : atHand scope p s.obtained = none)
      (huses : usesAccessor scope isTarget p = true) (hasks : AsksAccessor c scope env p s supply s') :
      Obtains c scope isTarget env p s supply s'
  /-- It is the parameter of a delegate. -/
  | parameter {scope : Scope} {isTarget : Bool} {env : Environment} {param : Parameter}
      {name : String} {depth : Nat} {s : State}
      (hhand : atHand scope (.parameter param name depth) s.obtained = none) :
      Obtains c scope isTarget env (.parameter param name depth) s ⟨name, none⟩ s
  /-- A delegate was created around its body. -/
  | delegate {scope : Scope} {isTarget : Bool} {env : Environment} {p : Provider} {ty result : Ty}
      {params : List Parameter} {isAsync : Bool} {name : String} {s s₁ t u u' : State}
      {ahead : List Provider} {supplies : List (Option Supply)} {target : Provider} {body : Plan}
      {step : Step} (hp : p = .delegate ty result params isAsync)
      (hhand : atHand scope p s.obtained = none) (hname : name = variableName ty env s.named)
      (hhoists : Hoists c scope env p isAsync s.afterName ahead s₁)
      (heach : ObtainsEach c scope env (ahead.map Environment.given) s₁ supplies t)
      (hlookup : (env.enter p).lookup result = some target)
      (hbody : Assembles c (scope.ofDelegate p isAsync name) (env.enter p) target t.singletons
        t body u)
      (hemits : EmitsDelegate scope p name body (stepsOf supplies) u step u') :
      Obtains c scope isTarget env p s ⟨name, some step⟩ (u'.afterNote p ⟨name, some step⟩)
  /-- The function of an owned value was called once more. -/
  | ownedAgain {scope : Scope} {isTarget : Bool} {env : Environment} {p : Provider} {ty value : Ty}
      {isAsync : Bool} {name : String} {s t : State} {function : Supply} {step : Step}
      (hp : p = .owned ty value isAsync) (hname : name = variableName ty env s.named)
      (ht : t = s.afterName)
      (hnoted : (t.obtained.find? fun entry => entry.1 = p.identity).map (·.2) = some function)
      (hstep : step = t.draft scope (.owned name p scope.isAsync function.name) none
        function.step?.toList) :
      Obtains c scope isTarget env p s ⟨name, some step⟩ (t.afterStep step)
  /-- An owned value was created, and first the function that produces it. -/
  | owned {scope : Scope} {isTarget : Bool} {env : Environment} {p : Provider} {ty value : Ty}
      {isAsync : Bool} {name : String} {s t u v : State} {function : Supply} {target : Provider}
      {body : Plan} {defining step : Step} (hp : p = .owned ty value isAsync)
      (hname : name = variableName ty env s.named) (ht : t = s.afterName)
      (hnoted : (t.obtained.find? fun entry => entry.1 = p.identity).map (·.2) = none)
      (hlookup : (env.enter p).lookup value = some target)
      (hbody : Assembles c (scope.ofOwned isAsync) (env.enter p) target t.singletons t body u)
      (hdefining : defining = u.afterName.draft scope
        (.ownedFunction (functionName ty u.named) p scope.isAsync body) none [])
      (hfunction : function = ⟨functionName ty u.named, some defining⟩)
      (hv : v = (u.afterName.afterStep defining).afterNote p function)
      (hstep : step = v.draft scope (.owned name p scope.isAsync function.name) none [defining]) :
      Obtains c scope isTarget env p s ⟨name, some step⟩ (v.afterStep step)
  /-- The value was created from arguments. -/
  | value {scope : Scope} {isTarget : Bool} {env : Environment} {p : Provider} {name : String}
      {s t u : State} {supplies : List (Option Supply)} {step : Step}
      (hp : p.isCreated = true) (hhand : atHand scope p s.obtained = none)
      (huses : usesAccessor scope isTarget p = false) (hname : name = variableName p.ty env s.named)
      (heach : ObtainsEach c scope (env.enter p) ((env.enter p).requests p) s.afterName supplies t)
      (hcreates : CreatesValue scope (env.enter p) p name (namesOf supplies) (stepsOf supplies)
        t step u) :
      Obtains c scope isTarget env p s ⟨name, some step⟩ (u.afterValue p ⟨name, some step⟩)

/-- How the values of several requests were obtained. Nothing is supplied for an optional request
without a provider. -/
inductive ObtainsEach (c : Settings) :
    Scope → Environment → List Request → State → List (Option Supply) → State → Prop
  | nil {scope : Scope} {env : Environment} {s : State} : ObtainsEach c scope env [] s [] s
  | supplied {scope : Scope} {env : Environment} {r : Request} {rest : List Request} {q : Provider}
      {s t u : State} {supply : Supply} {supplies : List (Option Supply)}
      (hprovider : r.provider? = some q) (head : Obtains c scope false env q s supply t)
      (tail : ObtainsEach c scope env rest t supplies u) :
      ObtainsEach c scope env (r :: rest) s (some supply :: supplies) u
  | leftOut {scope : Scope} {env : Environment} {r : Request} {rest : List Request} {s u : State}
      {supplies : List (Option Supply)} (hprovider : r.provider? = none)
      (hoptional : r.optional = true) (tail : ObtainsEach c scope env rest s supplies u) :
      ObtainsEach c scope env (r :: rest) s (none :: supplies) u

/-- How the plan of a body was assembled, given the values it may use. -/
inductive Assembles (c : Settings) :
    Scope → Environment → Provider → List (Provider.Identity × Supply) → State → Plan → State → Prop
  | body {scope : Scope} {env : Environment} {target : Provider}
      {known : List (Provider.Identity × Supply)} {s t : State} {supply : Supply}
      {arranged : List Step} (hobtains : Obtains c scope true env target (s.forBody known) supply t)
      (harranges : c.scheduler.Arranges scope.isAsync t.steps arranged) :
      Assembles c scope env target known s ⟨arranged, supply.name⟩ (s.afterBody t)

end

/-- Assembling a body leaves the steps and values of the plan around as they were. -/
theorem Assembles.same {c : Settings} {scope : Scope} {env : Environment} {target : Provider}
    {known : List (Provider.Identity × Supply)} {s s' : State} {plan : Plan}
    (h : Assembles c scope env target known s plan s') :
    s'.steps = s.steps ∧ s'.obtained = s.obtained := by
  cases h
  exact ⟨rfl, rfl⟩

/-! ### Every successful assembly has a derivation -/

theorem leaveOut_ok {c : Settings} {budget : Nat} {r : Request} {s s' : State}
    {found : Option Supply} (h : obtain.leaveOut c budget r s = .ok found s') :
    found = none ∧ r.optional = true ∧ s' = s := by
  unfold obtain.leaveOut at h
  by_cases hbudget : budget = 0
  · rw [if_pos hbudget] at h
    obtain ⟨_, t, hexhausted, _⟩ := bind_ok.mp h
    exact absurd hexhausted exhausted_ok
  · rw [if_neg hbudget] at h
    obtain ⟨_, t, hcheck, hrest⟩ := bind_ok.mp h
    obtain rfl := checkpoint_ok hcheck
    by_cases hoptional : r.optional = true
    · rw [if_pos hoptional] at hrest
      obtain ⟨rfl, rfl⟩ := pure_ok.mp hrest
      exact ⟨rfl, hoptional, rfl⟩
    · rw [if_neg hoptional] at hrest
      exact absurd hrest throw_ok

/-- The supplies of requests, from runs that obtain what is provided and leave out the rest. -/
theorem ObtainsEach.of_requests {c : Settings} {nested : AssembleBody} {scope : Scope}
    {budget : Nat} {env : Environment}
    (hobtain : ∀ q s supply s', obtain c nested scope budget false env q s = .ok supply s' →
      Obtains c scope false env q s supply s')
    {requests : List Request} {s s' : State} {supplies : List (Option Supply)}
    (h : Each (fun request s supply s' =>
      (match request.provider? with
        | some q => some <$> obtain c nested scope budget false env q
        | none => obtain.leaveOut c budget request) s = .ok supply s') requests s supplies s') :
    ObtainsEach c scope env requests s supplies s' := by
  induction h with
  | nil => exact .nil
  | @cons r supply rest supplies s t u head tail ih =>
      cases hprovider : r.provider? with
      | some q =>
          simp only [hprovider] at head
          obtain ⟨found, hfound, rfl⟩ := map_ok.mp head
          exact .supplied hprovider (hobtain q s found t hfound) ih
      | none =>
          simp only [hprovider] at head
          obtain ⟨rfl, hoptional, rfl⟩ := leaveOut_ok head
          exact .leftOut hprovider hoptional ih

/-- The supplies of providers at hand. -/
theorem ObtainsEach.of_given {c : Settings} {nested : AssembleBody} {scope : Scope}
    {budget : Nat} {env : Environment}
    (hobtain : ∀ q s supply s', obtain c nested scope budget false env q s = .ok supply s' →
      Obtains c scope false env q s supply s')
    {providers : List Provider} {s s' : State} {supplies : List Supply}
    (h : Each (fun q s supply s' => obtain c nested scope budget false env q s = .ok supply s')
      providers s supplies s') :
    ObtainsEach c scope env (providers.map Environment.given) s (supplies.map some) s' := by
  induction h with
  | nil => exact .nil
  | cons head tail ih => exact .supplied rfl (hobtain _ _ _ _ head) ih

theorem stepsOf_map_some (supplies : List Supply) :
    stepsOf (supplies.map some) = supplies.filterMap Supply.step? := by
  rw [stepsOf, List.filterMap_map]
  rfl

/-- What a value is obtained as, once its step is there. -/
def supplyValue (p : Provider) (name : String) (step : Step) : Assemble Supply := do
  if p.lifetime.isShared then note p ⟨name, some step⟩
  return ⟨name, some step⟩

theorem supplyValue_ok {p : Provider} {name : String} {step : Step} {s s' : State}
    {supply : Supply} (h : supplyValue p name step s = .ok supply s') :
    supply = ⟨name, some step⟩ ∧ s' = s.afterValue p ⟨name, some step⟩ := by
  unfold supplyValue at h
  unfold State.afterValue
  by_cases hshared : p.lifetime.isShared = true
  · rw [if_pos hshared] at h ⊢
    cases h
    exact ⟨rfl, rfl⟩
  · rw [if_neg hshared] at h ⊢
    cases h
    exact ⟨rfl, rfl⟩

/-! The cases of `obtain`, each as a program of its own. -/

/-- Obtains a value that is created from arguments. -/
def createdValue (c : Settings) (nested : AssembleBody) (scope : Scope) (budget : Nat)
    (env : Environment) (p : Provider) : Assemble Supply := do
  let name ← newVariable p.ty env
  let supplies ← ((env.enter p).requests p).mapM fun request =>
    match request.provider? with
    | some q => some <$> obtain c nested scope budget false (env.enter p) q
    | none => obtain.leaveOut c budget request
  let step ← createValue scope (env.enter p) p name (namesOf supplies) (stepsOf supplies)
  supplyValue p name step

/-- Obtains a delegate with a body for the given type, after the singletons ahead. -/
def delegateAfter (c : Settings) (nested : AssembleBody) (scope : Scope) (budget : Nat)
    (env : Environment) (p : Provider) (result : Ty) (isAsync : Bool) (name : String)
    (ahead : List Provider) : Assemble Supply := do
  let supplies ← ahead.mapM fun q => obtain c nested scope budget false env q
  let step ← createDelegate nested scope (env.enter p) p result isAsync name
    (supplies.filterMap Supply.step?)
  supplyValue p name step

/-- Obtains a delegate with a body for the given type. -/
def delegateValue (c : Settings) (nested : AssembleBody) (scope : Scope) (budget : Nat)
    (env : Environment) (p : Provider) (ty result : Ty) (isAsync : Bool) : Assemble Supply := do
  let name ← newVariable ty env
  let ahead ← if scope.isAsync && !isAsync then singletonsAhead c env p else pure []
  delegateAfter c nested scope budget env p result isAsync name ahead

/-- Obtains an owned value with a body for the given type. -/
def ownedValue (nested : AssembleBody) (scope : Scope) (env : Environment) (p : Provider)
    (ty value : Ty) (isAsync : Bool) : Assemble Supply := do
  let name ← newVariable ty env
  let step ← createOwned nested scope (env.enter p) p value isAsync name
  supplyValue p name step

/-- A created value was obtained through its arguments, in the order of its parameters. -/
theorem createdValue_ok {c : Settings} {nested : AssembleBody} {scope : Scope} {budget : Nat}
    {isTarget : Bool} {env : Environment} {p : Provider} {s s' : State} {supply : Supply}
    (hobtain : ∀ env q s supply s', obtain c nested scope budget false env q s = .ok supply s' →
      Obtains c scope false env q s supply s')
    (hp : p.isCreated = true) (hhand : atHand scope p s.obtained = none)
    (huses : usesAccessor scope isTarget p = false)
    (h : createdValue c nested scope budget env p s = .ok supply s') :
    Obtains c scope isTarget env p s supply s' := by
  obtain ⟨name, s₁, hname, h₁⟩ := bind_ok.mp h
  obtain ⟨rfl, rfl⟩ := newVariable_ok hname
  obtain ⟨supplies, t, hsupplies, h₂⟩ := bind_ok.mp h₁
  obtain ⟨step, u, hstep, h₃⟩ := bind_ok.mp h₂
  obtain ⟨rfl, rfl⟩ := supplyValue_ok h₃
  exact .value hp hhand huses rfl (.of_requests (hobtain _) (mapM_ok hsupplies))
    (createValue_ok hstep)

/-- A delegate is obtained after it was found out which singletons come ahead of it. -/
theorem delegateAfter_ok {c : Settings} {nested : AssembleBody} {scope : Scope} {budget : Nat}
    {env : Environment} {p : Provider} {ty result : Ty} {isAsync : Bool} {s s' : State}
    {supply : Supply}
    (h : delegateValue c nested scope budget env p ty result isAsync s = .ok supply s') :
    ∃ ahead s₂, Hoists c scope env p isAsync s.afterName ahead s₂ ∧
      delegateAfter c nested scope budget env p result isAsync (variableName ty env s.named) ahead
        s₂ = .ok supply s' := by
  obtain ⟨name, s₁, hname, h₁⟩ := bind_ok.mp h
  obtain ⟨rfl, rfl⟩ := newVariable_ok hname
  unfold Hoists
  by_cases hwaits : (scope.isAsync && !isAsync) = true
  · rw [if_pos hwaits] at h₁
    obtain ⟨ahead, s₂, hahead, h₂⟩ := bind_ok.mp h₁
    exact ⟨ahead, s₂, by rw [if_pos hwaits]; exact singletonsAhead_ok hahead, h₂⟩
  · rw [if_neg hwaits] at h₁
    exact ⟨[], s.afterName, by rw [if_neg hwaits]; exact ⟨rfl, rfl⟩, h₁⟩

/-- A delegate was obtained through the singletons ahead and its body, in this order. -/
theorem delegateValue_ok {c : Settings} {nested : AssembleBody} {scope : Scope} {budget : Nat}
    {isTarget : Bool} {env : Environment} {p : Provider} {ty result : Ty}
    {params : List Parameter} {isAsync : Bool} {s s' : State} {supply : Supply}
    (hobtain : ∀ env q s supply s', obtain c nested scope budget false env q s = .ok supply s' →
      Obtains c scope false env q s supply s')
    (hnested : ∀ scope env target known s plan s',
      nested scope env target known s = .ok plan s' →
        Assembles c scope env target known s plan s')
    (hp : p = .delegate ty result params isAsync) (hhand : atHand scope p s.obtained = none)
    (h : delegateValue c nested scope budget env p ty result isAsync s = .ok supply s') :
    Obtains c scope isTarget env p s supply s' := by
  obtain ⟨ahead, s₂, hhoists, h₂⟩ := delegateAfter_ok h
  obtain ⟨supplies, t, hsupplies, h₃⟩ := bind_ok.mp h₂
  obtain ⟨step, u', hstep, h₄⟩ := bind_ok.mp h₃
  obtain ⟨rfl, rfl⟩ := supplyValue_ok h₄
  obtain ⟨target, body, u, hlookup, hbody, hemits⟩ := createDelegate_ok hstep
  have hshared : p.lifetime.isShared = true := by rw [hp]; rfl
  rw [State.afterValue, if_pos hshared]
  rw [← stepsOf_map_some] at hemits
  exact .delegate hp hhand rfl hhoists (.of_given (hobtain env) (mapM_ok hsupplies)) hlookup
    (hnested _ _ _ _ _ _ _ hbody) hemits

/-- An owned value was obtained through its function, which was noted before or has been defined now. -/
theorem ownedValue_ok {c : Settings} {nested : AssembleBody} {scope : Scope} {isTarget : Bool}
    {env : Environment} {p : Provider} {ty value : Ty} {isAsync : Bool} {s s' : State}
    {supply : Supply}
    (hnested : ∀ scope env target known s plan s',
      nested scope env target known s = .ok plan s' →
        Assembles c scope env target known s plan s')
    (hp : p = .owned ty value isAsync)
    (h : ownedValue nested scope env p ty value isAsync s = .ok supply s') :
    Obtains c scope isTarget env p s supply s' := by
  obtain ⟨name, s₁, hname, h₁⟩ := bind_ok.mp h
  obtain ⟨rfl, rfl⟩ := newVariable_ok hname
  obtain ⟨step, u, hstep, h₂⟩ := bind_ok.mp h₁
  obtain ⟨rfl, rfl⟩ := supplyValue_ok h₂
  have hshared : ¬ p.lifetime.isShared = true := by rw [hp]; exact Bool.false_ne_true
  have hty : p.ty = ty := by rw [hp]; rfl
  rw [State.afterValue, if_neg hshared]
  obtain ⟨function, t, hcases, rfl, rfl⟩ := createOwned_ok hstep
  rcases hcases with ⟨hnoted, rfl⟩ | ⟨target, body, u, defining, hnoted, hlookup, hbody, hd, hf, rfl⟩
  · exact .ownedAgain hp rfl rfl hnoted rfl
  · rw [hty] at hd hf
    subst hf
    exact .owned hp rfl rfl hnoted hlookup (hnested _ _ _ _ _ _ _ hbody) hd rfl rfl rfl

/-- Obtaining a value leaves a derivation, given that the bodies in it do. The induction is on the
budget, which the derivation forgets. -/
theorem obtain_sound {c : Settings} {nested : AssembleBody}
    (hnested : ∀ scope env target known s plan s',
      nested scope env target known s = .ok plan s' →
        Assembles c scope env target known s plan s')
    {scope : Scope} {budget : Nat} {isTarget : Bool} {env : Environment} {p : Provider}
    {s s' : State} {supply : Supply}
    (h : obtain c nested scope budget isTarget env p s = .ok supply s') :
    Obtains c scope isTarget env p s supply s' := by
  induction budget generalizing isTarget env p s s' supply with
  | zero => exact absurd h exhausted_ok
  | succ budget ih =>
      have hobtain : ∀ env q s supply s',
          obtain c nested scope budget false env q s = .ok supply s' →
            Obtains c scope false env q s supply s' := fun _ _ _ _ _ => ih
      unfold obtain at h
      obtain ⟨_, t, hcheck, h₁⟩ := bind_ok.mp h
      obtain rfl := checkpoint_ok hcheck
      obtain ⟨hand, u, hrun, h₂⟩ := bind_ok.mp h₁
      cases (atHand?_run scope p t).symm.trans hrun
      -- In the order in which `obtain` decides: at hand, at an accessor, by kind.
      cases hhand : atHand scope p t.obtained with
      | some found =>
          rw [hhand] at h₂
          obtain ⟨rfl, rfl⟩ := pure_ok.mp h₂
          exact .atHand hhand
      | none =>
          rw [hhand] at h₂
          by_cases huses : usesAccessor scope isTarget p = true
          · simp only [if_pos huses] at h₂
            exact .accessor hhand huses (askAccessor_ok h₂)
          · simp only [if_neg huses] at h₂
            have huses : usesAccessor scope isTarget p = false := by simpa using huses
            cases p with
            | parameter param name depth =>
                obtain ⟨rfl, rfl⟩ := pure_ok.mp h₂
                exact .parameter hhand
            | delegate ty result params isAsync => exact delegateValue_ok hobtain hnested rfl hhand h₂
            | owned ty value isAsync => exact ownedValue_ok hnested rfl h₂
            | construct site rule => exact createdValue_ok hobtain rfl hhand huses h₂
            | factory site product maker lifetime isAsync =>
                exact createdValue_ok hobtain rfl hhand huses h₂
            | call site rule => exact createdValue_ok hobtain rfl hhand huses h₂
            | held member => exact createdValue_ok hobtain rfl hhand huses h₂
            | array ty element items => exact createdValue_ok hobtain rfl hhand huses h₂
            | decorated site decorator inner =>
                exact createdValue_ok hobtain rfl hhand huses h₂
            | forwarded ty inner => exact createdValue_ok hobtain rfl hhand huses h₂

/-- Every successful assembly of a body has a derivation. The induction is on how deep bodies may still
be nested. -/
theorem assemble_sound {c : Settings} {nesting : Nat} {scope : Scope} {env : Environment}
    {target : Provider} {known : List (Provider.Identity × Supply)} {s s' : State} {plan : Plan}
    (h : assemble c nesting scope env target known s = .ok plan s') :
    Assembles c scope env target known s plan s' := by
  induction nesting generalizing scope env target known s plan s' with
  | zero => exact absurd h throw_ok
  | succ nesting ih =>
      rw [assemble] at h
      obtain ⟨supply, t, hobtain, h₁⟩ := bind_ok.mp (show
        (obtain c (assemble c nesting) scope (c.maxDepth + 1) true env target >>= _)
          (s.forBody known) = .ok plan s' from h)
      have hobtains := obtain_sound (fun _ _ _ _ _ _ _ => ih) hobtain
      obtain ⟨u, v, hget, h₂⟩ := bind_ok.mp h₁
      cases hget
      -- The value is obtained before anything is arranged, and only where waiting is possible.
      by_cases hwaits : scope.isAsync = true
      · cases harrange : c.scheduler.arrange t.steps with
        | error e =>
            simp only [hwaits, if_true, harrange] at h₂
            exact absurd h₂ throw_ok
        | ok arranged =>
            simp only [hwaits, if_true, harrange] at h₂
            cases h₂
            exact .body hobtains (by rw [Scheduler.Arranges, if_pos hwaits]; exact harrange)
      · simp only [hwaits] at h₂
        cases h₂
        exact .body hobtains (by rw [Scheduler.Arranges, if_neg hwaits])

theorem answer_ok {result : EStateM.Result PlanError State Plan} {plan : Plan}
    (h : answer result = .ok plan) : ∃ s, result = .ok plan s := by
  cases result with
  | ok assembled s =>
      cases h
      exact ⟨s, rfl⟩
  | error e s => cases h

/-- Every plan assembled on its own has a derivation. -/
theorem run_sound {config : Config} {trigger : Trigger} {scope : Scope} {env : Environment}
    {target : Provider} {plan : Plan} (h : run config trigger scope env target = .ok plan) :
    ∃ s, Assembles (.ofConfig config trigger env) scope env target [] .initial plan s := by
  obtain ⟨s, hrun⟩ := answer_ok h
  exact ⟨s, assemble_sound hrun⟩

end Assembly

end Wiring
