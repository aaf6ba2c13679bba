import Wiring.Proofs.Assembly.Naming
import Wiring.Proofs.Plan.Values

/-!
# Where the steps of a plan come from

For each step of an assembled plan it can be said why it is there and what its arguments stand for. It
is said once here, for every kind of statement, so that what is claimed of arguments, types and
releases can be read off without going through the assembly again.

* `Requested` — where a provider is asked for in a plan.
* `Setup` — what holds throughout a plan; `Setup.StandsFor` is what a supply stands for there.
* `Setup.Origin` — why a step is there, one case for each kind of statement.
* `Obtains.sourced` — obtaining a value makes steps of known origin, and the supply stands for the
  value.
* `Assembled.within` — every plan in the tree was assembled like the whole.
* `planResolution_embedded` — a plan in the tree of a resolution's plan, with its setup (`Embedded`).
-/

namespace Wiring

/-! ### Requests within a plan -/

/-- What is found ahead of a delegate are singletons from below it, and whatever is below them is among
the same providers. -/
theorem Survey.singletonsAhead_within {among : Provider → Prop} {maxDepth : Nat} {trigger : Trigger}
    {env : Environment} {isAsync : Bool} {delegate : Provider} {answers after : Answers}
    {ahead : List Provider}
    (hwithin : (Place.mk env isAsync (Environment.given delegate)).Within among)
    (h : singletonsAhead maxDepth trigger env delegate answers = .ok (ahead, after)) :
    ∀ q ∈ ahead, q.lifetime = .single ∧ ∃ env' isAsync', env'.catalog = env.catalog ∧
      (Place.mk env' isAsync' (Environment.given q)).Within among := by
  obtain ⟨entered, hvisits⟩ := run_sound h
  -- Along the walk: the places visited are within what is among, in some mode of waiting, and so is
  -- every singleton found so far. A place entered keeps the first, a judgement that adds a
  -- singleton the second.
  refine hvisits.invariant
    (P := fun env' r => env'.catalog = env.catalog ∧ ∃ isAsync', (Place.mk env' isAsync' r).Within among)
    (I := fun found => ∀ q ∈ found.1, q.lifetime = .single ∧ ∃ env' isAsync',
      env'.catalog = env.catalog ∧ (Place.mk env' isAsync' (Environment.given q)).Within among)
    ?_ ?_ ⟨rfl, isAsync, hwithin⟩ (by simp)
  · rintro env' r p found after ⟨hcatalog, isAsync', hr⟩ hp - below hbelow
    exact ⟨(env'.catalog_enter p).trans hcatalog, _, hr.next (.intro hp hbelow)⟩
  · rintro env' r p found goOn after ⟨hcatalog, isAsync', hr⟩ hp hfound hjudge
    intro q hq
    rcases mem_of_suspendingSingletons_judge hjudge hq with hq | ⟨rfl, hsingle, -⟩
    · exact hfound q hq
    · exact ⟨hsingle, env', isAsync', hcatalog, hr.given hp⟩

namespace Assembly

/-- A scope of a plan at the container where the accessor of a singleton is planned, or of any other
plan. -/
def Scope.FitsIn (scope : Scope) (base : Environment) : Prop :=
  scope.accessorOf? = none ∨ base.isContainer = true ∧ scope.around = []

/-- Where a provider is asked for in a plan whose value is requested in `base`. Only singletons are
asked for elsewhere. Whatever is below the request is among the given providers. -/
structure Requested (among : Provider → Prop) (base env : Environment) (p : Provider) : Prop where
  catalog : env.catalog = base.catalog
  here : p.lifetime ≠ .single → env = base
  within : ∃ isAsync, (Place.mk env isAsync (Environment.given p)).Within among

namespace Requested

variable {among : Provider → Prop} {base env env' : Environment} {p q target : Provider}
  {scope : Scope} {isTarget isAsync : Bool} {r : Request} {ty : Ty}

theorem among_self (h : Requested among base env p) : among p :=
  let ⟨_, hwithin⟩ := h.within
  hwithin.provider rfl

theorem enter_eq (h : Requested among base env p) : env.enter p = base.enter p := by
  by_cases hsingle : p.lifetime = .single
  · rw [env.enter_of_single hsingle, base.enter_of_single hsingle, Environment.root,
      Environment.root, h.catalog]
  · rw [h.here hsingle]

/-- A created value resolves its dependencies in the plan's own environment, unless they are singletons. -/
theorem enter_here (h : Requested among base env p) (hp : p.isCreated = true)
    (huses : usesAccessor scope isTarget p = false) (hscope : scope.FitsIn base)
    (hr : r ∈ (env.enter p).requests p)
    (hnot : ∀ q, r.provider? = some q → q.lifetime ≠ .single) : env.enter p = base := by
  by_cases hpsingle : p.lifetime = .single
  · rcases hscope with hnone | ⟨hcontainer, -⟩
    · obtain ⟨q, hq, hqsingle⟩ := single_of_not_usesAccessor hpsingle huses hnone hr
      exact absurd hqsingle (hnot q hq)
    · rw [env.enter_of_single hpsingle, Environment.root, h.catalog]
      exact Environment.root_of_isContainer hcontainer
  · rw [enter_of_isCreated hp, if_neg hpsingle, h.here hpsingle]

/-- The dependencies of a created value are asked for in the same plan. -/
theorem request (h : Requested among base env p) (hp : p.isCreated = true)
    (huses : usesAccessor scope isTarget p = false) (hscope : scope.FitsIn base)
    (hr : r ∈ (env.enter p).requests p) (hq : r.provider? = some q) :
    Requested among base (env.enter p) q := by
  obtain ⟨isAsync, hwithin⟩ := h.within
  refine ⟨(env.catalog_enter p).trans h.catalog, fun hqsingle => ?_, _,
    (hwithin.next (.intro rfl hr)).given hq⟩
  refine h.enter_here hp huses hscope hr fun q' hq' => ?_
  cases hq.symm.trans hq'
  exact hqsingle

/-- The value of a body is asked for in a plan of its own. -/
theorem body (h : Requested among base env p) (hp : p.HasBody ty)
    (hlookup : (env.enter p).lookup ty = some target) :
    Requested among (base.enter p) (base.enter p) target := by
  obtain ⟨isAsync, hwithin⟩ := h.within
  obtain rfl := h.here hp.not_single
  exact ⟨rfl, fun _ => rfl, _, (hwithin.next (.intro rfl (hp.request_mem _))).given hlookup⟩

/-- What a body is assembled for is what its provider requests. -/
theorem value (h : Requested among base env p) (hp : p.HasBody ty)
    (hlookup : (env.enter p).lookup ty = some target) :
    ∀ r ∈ (base.enter p).requests p, r.provider? = some target := by
  intro r hr
  rw [hp.requests] at hr
  obtain rfl := List.mem_singleton.mp hr
  rw [← h.here hp.not_single]
  exact hlookup

/-- Only a singleton can be asked for elsewhere. -/
theorem within_here (h : Requested among base env p) (hp : p.lifetime ≠ .single) :
    ∃ isAsync, (Place.mk base isAsync (Environment.given p)).Within among := by
  rw [← h.here hp]
  exact h.within

/-- A singleton, asked for ahead of where it is needed. -/
theorem ahead (hcatalog : env.catalog = base.catalog) (hq : q.lifetime = .single)
    (hsame : env'.catalog = env.catalog)
    (hwithin : (Place.mk env' isAsync (Environment.given q)).Within among) :
    Requested among base env q := by
  have hroots : env.enter q = env'.enter q := by
    rw [env.enter_of_single hq, env'.enter_of_single hq, Environment.root, Environment.root, hsame]
  refine ⟨hcatalog, fun h => absurd hq h, isAsync, hwithin.of_next rfl fun y hy => ?_⟩
  obtain ⟨hprovider, hr⟩ := hy
  cases hprovider
  rw [hroots] at hr ⊢
  exact .intro rfl hr

end Requested

/-! ### What holds throughout a plan -/

/-- What holds throughout a plan: which providers may be met, where the plan's value is requested, and
what is around. -/
structure Setup where
  among : Provider → Prop
  base : Environment
  scope : Scope
  /-- The steps of plans around that may be used. -/
  outside : List Step

namespace Setup

/-- The setup of a body that is begun after the given steps. -/
def inside (σ : Setup) (p : Provider) (scope : Scope) (steps : List Step) : Setup where
  among := σ.among
  base := σ.base.enter p
  scope := scope
  outside := σ.outside ++ steps

/-- What the supply for an identity stands for, given the steps of the plan so far: a parameter, the
delegate around, a value made here or a singleton obtained around. -/
inductive StandsFor (σ : Setup) (steps : List Step) : Provider.Identity → Supply → Prop
  | parameter {param : Parameter} {name : String} {depth : Nat} :
      StandsFor σ steps (.parameter param name depth) ⟨name, none⟩
  | around {ty : Ty} {name : String} (haround : (.delegate ty, name) ∈ σ.scope.around) :
      StandsFor σ steps (.delegate ty) ⟨name, none⟩
  | made {p : Provider} {name : String} {step : Step} (hamong : σ.among p)
      (hdelivers : Delivers steps p name step) : StandsFor σ steps p.identity ⟨name, some step⟩
  | inherited {p : Provider} {name : String} {step : Step} (hamong : σ.among p)
      (hsingle : p.lifetime = .single) (hdelivers : Delivers σ.outside p name step) :
      StandsFor σ steps p.identity ⟨name, some step⟩

/-- What is supplied for a request: something that stands for its provider, or nothing for an optional
request without one. -/
inductive Supplies (σ : Setup) (steps : List Step) : Request → Option Supply → Prop
  | supplied {r : Request} {q : Provider} {supply : Supply} (hprovider : r.provider? = some q)
      (hamong : σ.among q) (hstands : σ.StandsFor steps q.identity supply) :
      Supplies σ steps r (some supply)
  | leftOut {r : Request} (hprovider : r.provider? = none) (hoptional : r.optional = true) :
      Supplies σ steps r none

end Setup

/-- The values known when a body is begun: singletons obtained around it. -/
def Setup.Knows (σ : Setup) (known : List (Provider.Identity × Supply)) : Prop :=
  ∀ entry ∈ known, entry.1.lifetime = .single ∧ σ.StandsFor [] entry.1 entry.2

/-- A plan was assembled in a setup for the value of a provider. -/
inductive Assembled (c : Settings) (σ : Setup) (target : Provider) (plan : Plan) : Prop
  | intro {known : List (Provider.Identity × Supply)} {s s' : State}
      (hassembles : Assembles c σ.scope σ.base target known s plan s')
      (hscope : σ.scope.FitsIn σ.base) (hasked : Requested σ.among σ.base σ.base target)
      (hknown : σ.Knows known)

/-- The body of a step was assembled inside for the value that its provider requests. Only a delegate
brings in more delegates around it. -/
inductive Setup.Bears (c : Settings) (σ : Setup) (steps : List Step) (carrier : Step) (body : Plan) :
    Prop
  | intro {p target : Provider} {scope : Scope} (hp : carrier.statement.provider? = some p)
      (haround : ∀ entry ∈ scope.around, entry ∈ σ.scope.around ∨
        ∃ body registry, carrier.statement = .delegate entry.2 p body registry ∧
          entry.1 = p.identity)
      (hlifetime : p.lifetime ≠ .single)
      (hwithin : ∃ isAsync, (Place.mk σ.base isAsync (Environment.given p)).Within σ.among)
      (hvalue : ∀ r ∈ (σ.base.enter p).requests p, r.provider? = some target)
      (hbody : Assembled c (σ.inside p scope steps) target body)

/-- Why a step is there: what it needs, what its arguments stand for and how it is released. There is
one constructor for each kind of statement; everything about single steps is read off it. -/
inductive Setup.Origin (c : Settings) (σ : Setup) (steps : List Step) (step : Step) : Prop
  | asks {name : String} {p : Provider} {isAsync : Bool}
      (hstatement : step.statement = .single name p isAsync) (hsingle : p.lifetime = .single)
      (hrelease : step.release = none)
  | opens {name : String} {isAsync : Bool} (hstatement : step.statement = .registry name isAsync)
      (hrelease : step.release = none)
  | creates {name value : String} {p : Provider} {args : List (Option String)}
      {supplies : List (Option Supply)} {last : Step}
      (hstatement : step.statement = .create name p args) (hargs : args = namesOf supplies)
      (hneeds : step.needs = stepsOf supplies)
      (hsupplies : List.Forall₂ (σ.Supplies steps) ((σ.base.enter p).requests p) supplies)
      (hrelease : step.release = creationRelease σ.scope p args value) (hlast : last ∈ steps)
      (hfinishes : step.Finishes p value last) (hamong : σ.among p) (hcreated : p.isCreated = true)
      (hnamed : IsVariable name)
      (hhere : ∀ r ∈ (σ.base.enter p).requests p,
        (∀ q, r.provider? = some q → q.lifetime ≠ .single) → σ.base.enter p = σ.base)
  | starts {task : Option String} {name : String} {isAsync : Bool} {maker : Step}
      (hstatement : step.statement = .start task name isAsync) (hmaker : maker ∈ steps)
      (hneeds : step.needs = [maker]) (hname : maker.statement.assigned? = some name)
      (hrelease : step.release = none)
  | awaits {name : Option String} {task : String} {ty : Option Ty} {maker : Step}
      (hstatement : step.statement = .await name task ty) (hmaker : maker ∈ steps)
      (hneeds : step.needs = [maker]) (htask : maker.statement.assigned? = some task)
      (hgives : maker.statement.givesTask = true) (hrelease : step.release = none)
      (hnamed : ∀ v, name = some v → IsVariable v)
  | delegates {name registry : String} {p : Provider} {body : Plan}
      (hstatement : step.statement = .delegate name p body registry)
      (hbears : σ.Bears c steps step body)
      (hrelease : step.release = bodyRelease σ.scope body registry)
      (hopened : ∀ drain, step.release = some drain →
        ∃ opening ∈ steps, opening.statement = .registry registry drain.isAsync)
      (hdelegate : p.isDelegate = true) (hregistry : registry = name ++ "_disposeActions")
  | defines {function : String} {p : Provider} {isAsync : Bool} {body : Plan}
      (hstatement : step.statement = .ownedFunction function p isAsync body)
      (hbears : σ.Bears c steps step body) (hrelease : step.release = none)
  | calls {name function : String} {p : Provider} {isAsync : Bool} {defining : Step}
      (hstatement : step.statement = .owned name p isAsync function) (hdefining : defining ∈ steps)
      (hfunction : defining.statement.assigned? = some function) (hrelease : step.release = none)
      (hnamed : IsVariable name) (howned : p.identity.isBody = true)
      (hmakes : ∃ q own body, q.identity = p.identity ∧
        defining.statement = .ownedFunction function q own body)
      (hneeds : step.needs = [defining])

/-! ### Further steps -/

section

variable {c : Settings} {σ : Setup} {steps wider : List Step} {step : Step}

theorem Setup.StandsFor.mono {i : Provider.Identity} {supply : Supply}
    (h : σ.StandsFor steps i supply) (hwider : steps ⊆ wider) : σ.StandsFor wider i supply := by
  cases h with
  | parameter => exact .parameter
  | around haround => exact .around haround
  | made hamong hdelivers => exact .made hamong (hdelivers.mono hwider)
  | inherited hamong hsingle hdelivers => exact .inherited hamong hsingle hdelivers

theorem Setup.Supplies.mono {r : Request} {supply : Option Supply} (h : σ.Supplies steps r supply)
    (hwider : steps ⊆ wider) : σ.Supplies wider r supply := by
  cases h with
  | supplied hprovider hamong hstands => exact .supplied hprovider hamong (hstands.mono hwider)
  | leftOut hprovider hoptional => exact .leftOut hprovider hoptional

/-- An argument stands for the value of the provider of its request. -/
theorem Setup.standsFor_of_zip {requests : List Request} {supplies : List (Option Supply)}
    {r : Request} {v : String} (h : List.Forall₂ (σ.Supplies steps) requests supplies)
    (hzip : (r, some v) ∈ requests.zip (namesOf supplies)) :
    ∃ q supply, r.provider? = some q ∧ some supply ∈ supplies ∧ supply.name = v ∧ σ.among q ∧
      σ.StandsFor steps q.identity supply := by
  rw [namesOf, List.zip_map_right] at hzip
  obtain ⟨⟨_, supply?⟩, hmem, heq⟩ := List.mem_map.mp hzip
  obtain ⟨rfl, hsupply⟩ := Prod.mk.inj heq
  obtain ⟨supply, rfl, hname⟩ := Option.map_eq_some_iff.mp hsupply
  cases List.forall₂_zip h hmem with
  | supplied hprovider hamong hstands =>
      exact ⟨_, supply, hprovider, (List.of_mem_zip hmem).2, hname, hamong, hstands⟩

/-- A body may be thought of as begun later. -/
theorem Assembled.mono {scope : Scope} {p target : Provider} {body : Plan}
    (h : Assembled c (σ.inside p scope steps) target body) (hwider : steps ⊆ wider) :
    Assembled c (σ.inside p scope wider) target body := by
  obtain ⟨hassembles, hscope, hasked, hknown⟩ := h
  have houtside : σ.outside ++ steps ⊆ σ.outside ++ wider :=
    List.append_subset.mpr ⟨List.subset_append_left _ _,
      List.Subset.trans hwider (List.subset_append_right _ _)⟩
  refine ⟨hassembles, hscope, hasked, fun ⟨i, supply⟩ hentry => ?_⟩
  obtain ⟨hsingle, hstands⟩ := hknown _ hentry
  refine ⟨hsingle, ?_⟩
  cases hstands with
  | parameter => exact .parameter
  | around haround => exact .around haround
  | made hamong hdelivers => exact .made hamong hdelivers
  | inherited hamong hlifetime hdelivers =>
      exact .inherited hamong hlifetime (hdelivers.mono houtside)

theorem Setup.Bears.mono {carrier : Step} {body : Plan} (h : σ.Bears c steps carrier body)
    (hwider : steps ⊆ wider) : σ.Bears c wider carrier body := by
  obtain ⟨hp, haround, hlifetime, hwithin, hvalue, hbody⟩ := h
  exact ⟨hp, haround, hlifetime, hwithin, hvalue, hbody.mono hwider⟩

theorem Setup.Origin.mono (h : σ.Origin c steps step) (hwider : steps ⊆ wider) :
    σ.Origin c wider step := by
  cases h with
  | asks hstatement hsingle hrelease => exact .asks hstatement hsingle hrelease
  | opens hstatement hrelease => exact .opens hstatement hrelease
  | creates hstatement hargs hneeds hsupplies hrelease hlast hfinishes hamong hcreated hnamed hhere =>
      exact .creates hstatement hargs hneeds (hsupplies.imp fun _ _ h => h.mono hwider) hrelease
        (hwider hlast) hfinishes hamong hcreated hnamed hhere
  | starts hstatement hmaker hneeds hname hrelease =>
      exact .starts hstatement (hwider hmaker) hneeds hname hrelease
  | awaits hstatement hmaker hneeds htask hgives hrelease hnamed =>
      exact .awaits hstatement (hwider hmaker) hneeds htask hgives hrelease hnamed
  | delegates hstatement hbears hrelease hopened hdelegate hregistry =>
      refine .delegates hstatement (hbears.mono hwider) hrelease (fun drain hdrain => ?_) hdelegate
        hregistry
      obtain ⟨opening, hopening, hregistry⟩ := hopened drain hdrain
      exact ⟨opening, hwider hopening, hregistry⟩
  | defines hstatement hbears hrelease =>
      exact .defines hstatement (hbears.mono hwider) hrelease
  | calls hstatement hdefining hfunction hrelease hnamed howned hmakes hneeds =>
      exact .calls hstatement (hwider hdefining) hfunction hrelease hnamed howned hmakes hneeds

end

/-! ### The invariant -/

variable {c : Settings} {σ : Setup} {env : Environment} {p : Provider} {s s' t u : State}
  {supply : Supply}

/-- What is noted stands for the value of its identity; under the identity of an owned value it is the
function that produces it. -/
def Setup.Notes (σ : Setup) (steps : List Step) (entry : Provider.Identity × Supply) : Prop :=
  if entry.1.lifetime.isShared then σ.StandsFor steps entry.1 entry.2
  else ∃ defining ∈ steps, entry.2.step? = some defining ∧ ∃ q own body, q.identity = entry.1 ∧
    defining.statement = .ownedFunction entry.2.name q own body

/-- The steps so far are of known origin, and so is everything noted. -/
structure State.Sourced (c : Settings) (σ : Setup) (s : State) : Prop where
  steps : ∀ step ∈ s.steps, σ.Origin c s.steps step
  obtained : ∀ entry ∈ s.obtained, σ.Notes s.steps entry

theorem Setup.Notes.mono {steps wider : List Step} {entry : Provider.Identity × Supply}
    (h : σ.Notes steps entry) (hwider : steps ⊆ wider) : σ.Notes wider entry := by
  unfold Setup.Notes at h ⊢
  split
  · rename_i hshared
    rw [if_pos hshared] at h
    exact h.mono hwider
  · rename_i hshared
    rw [if_neg hshared] at h
    obtain ⟨defining, hdefining, hrest⟩ := h
    exact ⟨defining, hwider hdefining, hrest⟩

/-- What is noted for a shared value stands for it. -/
theorem Setup.notes_iff_standsFor {steps : List Step} {i : Provider.Identity}
    (hshared : i.lifetime.isShared = true) :
    σ.Notes steps (i, supply) ↔ σ.StandsFor steps i supply := by
  rw [Setup.Notes, if_pos hshared]

namespace State.Sourced

theorem start {known : List (Provider.Identity × Supply)} (h : σ.Knows known) (s : State) :
    (s.forBody known).Sourced c σ := by
  refine ⟨fun _ hmem => absurd hmem List.not_mem_nil, fun entry hentry => ?_⟩
  obtain ⟨hsingle, hstands⟩ := h entry hentry
  exact (Setup.notes_iff_standsFor (by rw [hsingle]; rfl)).mpr hstands

/-- Further steps of known origin. -/
theorem extend {new : List Step} (h : s.Sourced c σ) (hsteps : s'.steps = s.steps ++ new)
    (hobtained : s'.obtained = s.obtained)
    (hnew : ∀ step ∈ new, σ.Origin c s'.steps step) : s'.Sourced c σ := by
  have hold : s.steps ⊆ s'.steps := by
    rw [hsteps]
    exact List.subset_append_left _ _
  refine ⟨fun step hstep => ?_, fun entry hentry => ?_⟩
  · rw [hsteps] at hstep
    rcases List.mem_append.mp hstep with hstep | hstep
    · exact (h.steps step hstep).mono hold
    · exact hnew step hstep
  · rw [hobtained] at hentry
    exact (h.obtained entry hentry).mono hold

/-- Only names, numbers and answers have changed. -/
theorem same (h : s.Sourced c σ) (hsteps : s'.steps = s.steps) (hobtained : s'.obtained = s.obtained) :
    s'.Sourced c σ :=
  h.extend (hsteps.trans (List.append_nil _).symm) hobtained (by simp)

theorem afterStep {step : Step} (h : s.Sourced c σ)
    (hstep : σ.Origin c (s.afterStep step).steps step) : (s.afterStep step).Sourced c σ := by
  refine h.extend rfl rfl fun other hother => ?_
  obtain rfl := List.mem_singleton.mp hother
  exact hstep

theorem afterNote (h : s.Sourced c σ) (hnotes : σ.Notes s.steps (p.identity, supply)) :
    (s.afterNote p supply).Sourced c σ := by
  refine ⟨h.steps, fun entry hentry => ?_⟩
  rcases List.mem_cons.mp hentry with rfl | hentry
  · exact hnotes
  · exact h.obtained entry hentry

/-- A shared value is noted. -/
theorem afterShared (h : s.Sourced c σ) (hshared : p.lifetime.isShared = true)
    (hstands : σ.StandsFor s.steps p.identity supply) : (s.afterNote p supply).Sourced c σ :=
  h.afterNote ((Setup.notes_iff_standsFor (by rwa [Provider.lifetime_identity])).mpr hstands)

theorem afterValue (h : s.Sourced c σ) (hstands : σ.StandsFor s.steps p.identity supply) :
    (s.afterValue p supply).Sourced c σ := by
  unfold State.afterValue
  split
  · rename_i hshared
    exact h.afterShared hshared hstands
  · exact h

theorem notes_of_noted (h : s.Sourced c σ)
    (hnoted : (s.obtained.find? fun entry => entry.1 = p.identity).map (·.2) = some supply) :
    σ.Notes s.steps (p.identity, supply) := by
  obtain ⟨⟨i, found⟩, hentry, rfl⟩ := Option.map_eq_some_iff.mp hnoted
  have hfound := List.find?_some hentry
  have hi : i = p.identity := of_decide_eq_true hfound
  subst hi
  exact h.obtained _ (List.mem_of_find?_eq_some hentry)

theorem standsFor_of_atHand (h : s.Sourced c σ)
    (hhand : atHand σ.scope p s.obtained = some supply) :
    σ.StandsFor s.steps p.identity supply := by
  rcases Option.or_eq_some_iff.mp hhand with hnoted | ⟨-, haround⟩
  · split at hnoted
    · rename_i hshared
      exact (Setup.notes_iff_standsFor (by rwa [Provider.lifetime_identity])).mp
        (h.notes_of_noted hnoted)
    · cases hnoted
  · split at haround
    · rename_i hdelegate
      obtain ⟨ty, result, params, isAsync, rfl⟩ := Provider.eq_delegate hdelegate
      obtain ⟨⟨i, name⟩, hentry, rfl⟩ := Option.map_eq_some_iff.mp haround
      have hfound := List.find?_some hentry
      have hi : i = .delegate ty := of_decide_eq_true hfound
      subst hi
      exact .around (List.mem_of_find?_eq_some hentry)
    · cases haround

/-- The values a body starts with are known inside. -/
theorem knows_singletons (h : s.Sourced c σ) (p : Provider) (scope : Scope) :
    (σ.inside p scope s.steps).Knows s.singletons := by
  rintro ⟨i, supply⟩ hentry
  obtain ⟨hmem, hsingle⟩ := List.mem_filter.mp hentry
  have hsingle : i.lifetime = .single := of_decide_eq_true hsingle
  have hstands := (Setup.notes_iff_standsFor (by rw [hsingle]; rfl)).mp (h.obtained _ hmem)
  refine ⟨hsingle, ?_⟩
  cases hstands with
  | parameter => cases hsingle
  | around haround => cases hsingle
  | made hamong hdelivers =>
      exact .inherited hamong (by rwa [← Provider.lifetime_identity])
        (hdelivers.mono (List.subset_append_right _ _))
  | inherited hamong hlifetime hdelivers =>
      exact .inherited hamong hlifetime (hdelivers.mono (List.subset_append_left _ _))

end State.Sourced

/-! ### The parts of a derivation -/

section

variable {steps : List Step} {step maker : Step} {name task : String} {scope : Scope}

/-- A step that creates a value from what was supplied has an origin, wherever the value is finished. -/
theorem Setup.Origin.of_create {supplies : List (Option Supply)} {value : String} {last : Step}
    (hstep : step = t.draft σ.scope (.create name p (namesOf supplies))
      (creationRelease σ.scope p (namesOf supplies) value) (stepsOf supplies))
    (hsupplies : List.Forall₂ (σ.Supplies s.steps) ((σ.base.enter p).requests p) supplies)
    (hgrows : s.steps ⊆ steps) (hlast : last ∈ steps) (hfinishes : step.Finishes p value last)
    (hamong : σ.among p) (hcreated : p.isCreated = true) (hname : IsVariable name)
    (hhere : ∀ r ∈ (σ.base.enter p).requests p,
      (∀ q, r.provider? = some q → q.lifetime ≠ .single) → σ.base.enter p = σ.base) :
    σ.Origin c steps step :=
  .creates (by rw [hstep]; rfl) rfl (by rw [hstep]; rfl)
    (hsupplies.imp fun _ _ hsupply => hsupply.mono hgrows) (by rw [hstep]; rfl) hlast hfinishes hamong
    hcreated hname hhere

theorem Setup.Origin.of_start {task : Option String} {isAsync : Bool}
    (hstep : step = t.draft scope (.start task name isAsync) none [maker]) (hmaker : maker ∈ steps)
    (hname : maker.statement.assigned? = some name) : σ.Origin c steps step :=
  .starts (by rw [hstep]; rfl) hmaker (by rw [hstep]; rfl) hname (by rw [hstep]; rfl)

theorem Setup.Origin.of_await {name : Option String} {ty : Option Ty}
    (hstep : step = t.draft scope (.await name task ty) none [maker]) (hmaker : maker ∈ steps)
    (htask : maker.statement.assigned? = some task) (hgives : maker.statement.givesTask = true)
    (hname : ∀ v, name = some v → IsVariable v) : σ.Origin c steps step :=
  .awaits (by rw [hstep]; rfl) hmaker (by rw [hstep]; rfl) htask hgives (by rw [hstep]; rfl) hname

end

/-- A value was obtained by steps of known origin, and the supply stands for it. -/
structure Sources (c : Settings) (σ : Setup) (p : Provider) (s : State) (supply : Supply) (s' : State) :
    Prop where
  sourced : s'.Sourced c σ
  grows : s.steps ⊆ s'.steps
  stands : σ.StandsFor s'.steps p.identity supply

theorem AsksAccessor.sourced (h : AsksAccessor c σ.scope env p s supply s') (hs : s.Sourced c σ)
    (hsingle : p.lifetime = .single) (hamong : σ.among p) : Sources c σ p s supply s' := by
  have hshared : p.lifetime.isShared = true := by rw [hsingle]; rfl
  cases h with
  | @sync answers t asking _ ht hasking =>
      -- The step that asks gives the singleton itself.
      subst ht
      have horigin : σ.Origin c (s.afterStep asking).steps asking :=
        .asks (by rw [hasking]; rfl) hsingle (by rw [hasking]; rfl)
      have hdelivers : Delivers (s.afterStep asking).steps p (variableName p.ty env s.named) asking :=
        ⟨by simp, by simp, by rw [hasking]; rfl, by simp,
          .own (by rw [hasking]; rfl) (by rw [hasking]; rfl), .refl _⟩
      have hstands := Setup.StandsFor.made hamong hdelivers
      refine ⟨State.Sourced.afterShared ?_ hshared hstands, List.subset_append_left _ _, hstands⟩
      exact (hs.afterStep horigin).same rfl rfl
  | @async answers t asking waiting _ ht hasking hwaiting =>
      -- The step that asks gives a task, and the singleton is delivered by the step that waits for
      -- it. The asking step comes first, so that the waiting one finds its task among the steps so
      -- far.
      subst ht
      have hasked : σ.Origin c (s.afterStep asking).steps asking :=
        .asks (by rw [hasking]; rfl) hsingle (by rw [hasking]; rfl)
      have hmem : asking ∈ ((s.afterStep asking).afterStep waiting).steps := by simp
      have hwaited : σ.Origin c ((s.afterStep asking).afterStep waiting).steps waiting :=
        .of_await hwaiting hmem (by rw [hasking]; rfl) (by rw [hasking]; rfl)
          (by rintro _ ⟨⟩; exact isVariable_variableName _ _ _)
      have hfinishes : asking.Finishes p (variableName p.ty env (s.named + 1)) waiting :=
        .awaited (by rw [hasking]; rfl) (by rw [hasking]; rfl) (by rw [hwaiting]; rfl)
          (by rw [hwaiting]; rfl)
      have hdelivers : Delivers ((s.afterStep asking).afterStep waiting).steps p
          (variableName p.ty env (s.named + 1)) waiting :=
        ⟨by simp, hmem, by rw [hasking]; rfl, by simp, hfinishes, .refl _⟩
      have hstands := Setup.StandsFor.made hamong hdelivers
      refine ⟨State.Sourced.afterShared ?_ hshared hstands, ?_, hstands⟩
      · exact ((hs.afterStep hasked).afterStep hwaited).same rfl rfl
      · exact List.Subset.trans (List.subset_append_left _ _) (List.subset_append_left _ _)

/-- The steps that create a value have origins, and the last of them delivers it: whoever needs that
step has the value finished and waited for, under its own name. -/
theorem CreatesValue.sourced {name : String} {supplies : List (Option Supply)} {step : Step}
    (h : CreatesValue σ.scope env p name (namesOf supplies) (stepsOf supplies) s step s')
    (hs : s.Sourced c σ) (hamong : σ.among p) (hcreated : p.isCreated = true)
    (hname : IsVariable name)
    (hsupplies : List.Forall₂ (σ.Supplies s.steps) ((σ.base.enter p).requests p) supplies)
    (hhere : ∀ r ∈ (σ.base.enter p).requests p,
      (∀ q, r.provider? = some q → q.lifetime ≠ .single) → σ.base.enter p = σ.base) :
    s'.Sourced c σ ∧ s.steps ⊆ s'.steps ∧ Delivers s'.steps p name step := by
  -- Each of the four ways to create a value adds the creation and after it the steps that wait for
  -- it or initialize it. The creation has its arguments from the supplies, the further steps have
  -- their one need among the steps just made. What differs is which step leaves the value finished,
  -- and which is needed by whoever uses it: the last one, from which the creation is reached.
  cases h with
  | plain hinit hasync hcreating =>
      have hfinishes : step.Finishes p name step :=
        .own (by simp [hcreating, Statement.holdsTask, hasync])
          (by simp [hcreating, Statement.declaration?, hasync])
      have horigin : σ.Origin c (s.afterStep step).steps step :=
        .of_create hcreating hsupplies (List.subset_append_left _ _) (by simp) hfinishes hamong
          hcreated hname hhere
      exact ⟨hs.afterStep horigin, List.subset_append_left _ _,
        by simp, by simp, by rw [hcreating]; rfl, by simp, hfinishes, .refl _⟩
  | @awaited t creating _ hinit hasync ht hcreating hwaiting =>
      -- The creation declares a task under a name of its own; the value has its name from the
      -- await.
      have hgrown : ((t.afterStep creating).afterStep step).steps = s.steps ++ [creating, step] := by
        simp [ht]
      have hsubset : s.steps ⊆ ((t.afterStep creating).afterStep step).steps := by
        rw [hgrown]
        exact List.subset_append_left _ _
      have hfinishes : creating.Finishes p name step :=
        .awaited (by simp [hcreating, Statement.holdsTask, hinit, hasync]) (by rw [hcreating]; rfl)
          (by rw [hwaiting]; rfl) (by rw [hwaiting]; rfl)
      have hmem : creating ∈ ((t.afterStep creating).afterStep step).steps := by simp
      have hcreates : σ.Origin c ((t.afterStep creating).afterStep step).steps creating :=
        .of_create hcreating hsupplies hsubset (by simp) hfinishes hamong hcreated
          (isVariable_variableName _ _ _) hhere
      have hawaits : σ.Origin c ((t.afterStep creating).afterStep step).steps step :=
        .of_await hwaiting hmem (by rw [hcreating]; rfl)
          (by simp [hcreating, Statement.givesTask, Statement.holdsTask, hinit, hasync])
          (by rintro _ ⟨⟩; exact hname)
      refine ⟨hs.extend hgrown (by simp [ht]) ?_, hsubset, by simp, hmem, by rw [hcreating]; rfl,
        by simp, hfinishes, .refl _⟩
      simp only [List.mem_cons, List.not_mem_nil, or_false, forall_eq_or_imp, forall_eq]
      exact ⟨hcreates, hawaits⟩
  | @initialized creating _ hinit hasync hcreating hstarting =>
      -- The value is there once created, but is only to be used after its initialization has
      -- started.
      have hgrown : ((s.afterStep creating).afterStep step).steps = s.steps ++ [creating, step] := by
        simp
      have hsubset : s.steps ⊆ ((s.afterStep creating).afterStep step).steps := by
        rw [hgrown]
        exact List.subset_append_left _ _
      have hfinishes : creating.Finishes p name creating :=
        .own (by simp [hcreating, Statement.holdsTask, hasync])
          (by simp [hcreating, Statement.declaration?, hasync])
      have hmem : creating ∈ ((s.afterStep creating).afterStep step).steps := by simp
      have hcreates : σ.Origin c ((s.afterStep creating).afterStep step).steps creating :=
        .of_create hcreating hsupplies hsubset hmem hfinishes hamong hcreated hname hhere
      have hstarts : σ.Origin c ((s.afterStep creating).afterStep step).steps step :=
        .of_start hstarting hmem (by rw [hcreating]; rfl)
      refine ⟨hs.extend hgrown rfl ?_, hsubset, by simp, hmem, by rw [hcreating]; rfl, hmem,
        hfinishes, .need (by rw [hstarting]; exact List.mem_singleton_self _) (.refl _)⟩
      simp only [List.mem_cons, List.not_mem_nil, or_false, forall_eq_or_imp, forall_eq]
      exact ⟨hcreates, hstarts⟩
  | @initializedAwaited t creating starting _ hinit hasync hcreating ht hstarting hwaiting =>
      -- As before, and the initialization hands out a task without a result: the await declares
      -- nothing.
      have hgrown : ((t.afterStep starting).afterStep step).steps =
          s.steps ++ [creating, starting, step] := by simp [ht]
      have hsubset : s.steps ⊆ ((t.afterStep starting).afterStep step).steps := by
        rw [hgrown]
        exact List.subset_append_left _ _
      have hfinishes : creating.Finishes p name creating :=
        .own (by simp [hcreating, Statement.holdsTask, hinit])
          (by simp [hcreating, Statement.declaration?, hinit])
      have hmem : creating ∈ ((t.afterStep starting).afterStep step).steps := by simp [ht]
      have hstarted : starting ∈ ((t.afterStep starting).afterStep step).steps := by simp
      have hcreates : σ.Origin c ((t.afterStep starting).afterStep step).steps creating :=
        .of_create hcreating hsupplies hsubset hmem hfinishes hamong hcreated hname hhere
      have hstarts : σ.Origin c ((t.afterStep starting).afterStep step).steps starting :=
        .of_start hstarting hmem (by rw [hcreating]; rfl)
      have hawaits : σ.Origin c ((t.afterStep starting).afterStep step).steps step :=
        .of_await hwaiting hstarted (by rw [hstarting]; rfl) (by rw [hstarting]; rfl) (by rintro _ ⟨⟩)
      have hreaches : step.Reaches creating :=
        .need (by rw [hwaiting]; exact List.mem_singleton_self _)
          (.need (by rw [hstarting]; exact List.mem_singleton_self _) (.refl _))
      refine ⟨hs.extend hgrown (by simp [ht]) ?_, hsubset, by simp, hmem, by rw [hcreating]; rfl,
        hmem, hfinishes, hreaches⟩
      simp only [List.mem_cons, List.not_mem_nil, or_false, forall_eq_or_imp, forall_eq]
      exact ⟨hcreates, hstarts, hawaits⟩

/-- The steps that create a delegate have origins, given that its body has one. The delegate is
delivered by its own step, which needs the step that opens its registry, if it has one. -/
theorem EmitsDelegate.sourced {name : String} {body : Plan} {needs : List Step} {step : Step}
    (h : EmitsDelegate σ.scope p name body needs u step s') (hp : p.isDelegate = true)
    (ht : t.Sourced c σ) (hsteps : u.steps = t.steps)
    (hobtained : u.obtained = t.obtained)
    (hbears : ∀ carrier : Step,
      carrier.statement = .delegate name p body (name ++ "_disposeActions") →
        σ.Bears c t.steps carrier body) :
    s'.Sourced c σ ∧ t.steps ⊆ s'.steps ∧ Delivers s'.steps p name step := by
  have hu : u.Sourced c σ := ht.same hsteps hobtained
  rw [← hsteps] at hbears ⊢
  cases h with
  | plain hrelease hcreating =>
      have hstatement : step.statement = .delegate name p body (name ++ "_disposeActions") := by
        rw [hcreating]
        rfl
      have hnone : step.release = none := by rw [hcreating]; rfl
      have horigin : σ.Origin c (u.afterStep step).steps step :=
        .delegates hstatement ((hbears step hstatement).mono (List.subset_append_left _ _))
          (hnone.trans hrelease.symm) (fun drain hdrain => by cases hnone.symm.trans hdrain) hp
          rfl
      exact ⟨hu.afterStep horigin, List.subset_append_left _ _, by simp, by simp,
        by rw [hstatement]; rfl, by simp, .own (by rw [hstatement]; rfl) (by rw [hstatement]; rfl),
        .refl _⟩
  | @registered drain opening _ hrelease hopening hcreating =>
      -- The body is released by a drain of the registry opened just before the delegate, under the
      -- name that the delegate gives it.
      have hstatement : step.statement = .delegate name p body (name ++ "_disposeActions") := by
        rw [hcreating]
        rfl
      have hdrain : step.release = some drain := by rw [hcreating]; rfl
      have hsubset : u.steps ⊆ ((u.afterStep opening).afterStep step).steps :=
        List.Subset.trans (List.subset_append_left _ _) (List.subset_append_left _ _)
      have hopens : σ.Origin c (u.afterStep opening).steps opening :=
        .opens (by rw [hopening]; rfl) (by rw [hopening]; rfl)
      have horigin : σ.Origin c ((u.afterStep opening).afterStep step).steps step := by
        refine .delegates hstatement ((hbears step hstatement).mono hsubset)
          (hdrain.trans hrelease.symm) (fun other hother => ⟨opening, by simp, ?_⟩) hp rfl
        cases hdrain.symm.trans hother
        rw [hopening]
        rfl
      exact ⟨(hu.afterStep hopens).afterStep horigin, hsubset, by simp, by simp,
        by rw [hstatement]; rfl, by simp, .own (by rw [hstatement]; rfl) (by rw [hstatement]; rfl),
        .refl _⟩

/-- The step around a body bears it, where the body was assembled in this plan. -/
theorem State.Sourced.bears {inner : Scope} {value : Ty} {target : Provider} {body : Plan}
    {carrier : Step} (ht : t.Sourced c σ) (hasked : Requested σ.among σ.base env p)
    (hp : p.HasBody value) (hlookup : (env.enter p).lookup value = some target)
    (hbody : Assembles c inner (env.enter p) target t.singletons t body u)
    (hinner : inner.accessorOf? = none) (hcarrier : carrier.statement.provider? = some p)
    (haround : ∀ entry ∈ inner.around, entry ∈ σ.scope.around ∨
      ∃ body registry, carrier.statement = .delegate entry.2 p body registry ∧
        entry.1 = p.identity) : σ.Bears c t.steps carrier body := by
  have htarget := hasked.body hp hlookup
  have hvalue := hasked.value hp hlookup
  rw [hasked.enter_eq] at hbody
  have hassembled : Assembled c (σ.inside p inner t.steps) target body :=
    .intro hbody (.inl hinner) htarget (ht.knows_singletons p inner)
  exact ⟨hcarrier, haround, hp.not_single, hasked.within_here hp.not_single, hvalue, hassembled⟩

/-- The step that defines the function of an owned value has an origin, and the function is noted. -/
theorem State.Sourced.define {ty value : Ty} {name : String} {isAsync own : Bool} {body : Plan}
    {defining : Step} (hu : u.Sourced c σ) (hp : p = .owned ty value isAsync)
    (hdefining : defining = u.draft σ.scope (.ownedFunction name p own body) none [])
    (hbears : σ.Bears c u.steps defining body) :
    σ.Notes (u.afterStep defining).steps (p.identity, ⟨name, some defining⟩) ∧
      ((u.afterStep defining).afterNote p ⟨name, some defining⟩).Sourced c σ := by
  have hshared : ¬ p.identity.lifetime.isShared = true := by
    rw [Provider.lifetime_identity, hp]
    exact Bool.false_ne_true
  have horigin : σ.Origin c (u.afterStep defining).steps defining :=
    .defines (by rw [hdefining]; rfl) (hbears.mono (List.subset_append_left _ _))
      (by rw [hdefining]; rfl)
  have hnotes : σ.Notes (u.afterStep defining).steps (p.identity, ⟨name, some defining⟩) := by
    rw [Setup.Notes, if_neg hshared]
    exact ⟨defining, by simp, rfl, p, own, body, rfl, by rw [hdefining]; rfl⟩
  exact ⟨hnotes, (hu.afterStep horigin).afterNote hnotes⟩

/-- Calling the function of an owned value makes a step of known origin, which delivers the value. -/
theorem State.Sourced.call (hs : s.Sourced c σ) {function : Supply} {name : String} {isAsync : Bool}
    {step : Step} {ty value : Ty} (hp : p = .owned ty value isAsync)
    (hnotes : σ.Notes s.steps (p.identity, function))
    (hstep : step = s.draft σ.scope (.owned name p σ.scope.isAsync function.name) none
      function.step?.toList) (hamong : σ.among p) (hname : IsVariable name) :
    Sources c σ p s ⟨name, some step⟩ (s.afterStep step) := by
  subst hp
  obtain ⟨defining, hdefining, hsupply, q, own, body, hidentity, hfunction⟩ := hnotes
  have horigin : σ.Origin c (s.afterStep step).steps step :=
    .calls (by rw [hstep]; rfl) (List.mem_append_left _ hdefining) (by rw [hfunction]; rfl)
      (by rw [hstep]; rfl) hname rfl ⟨q, own, body, hidentity, hfunction⟩
      (by rw [hstep, hsupply]; rfl)
  refine ⟨hs.afterStep horigin, List.subset_append_left _ _, .made hamong ?_⟩
  exact ⟨by simp, by simp, by rw [hstep]; rfl, by simp,
    .own (by rw [hstep]; rfl) (by rw [hstep]; rfl), .refl _⟩

/-- The singletons ahead are asked for in the plan around. -/
theorem Hoists.requested {isAsync : Bool} {ahead : List Provider}
    (h : Hoists c σ.scope env p isAsync s ahead s') (hasked : Requested σ.among σ.base env p) :
    ∀ r ∈ ahead.map Environment.given, ∀ q, r.provider? = some q →
      Requested σ.among σ.base env q := by
  refine forall_given fun q hq => ?_
  obtain ⟨isAsync', hwithin⟩ := hasked.within
  obtain ⟨answers, hahead⟩ := h.found hq
  obtain ⟨hsingle, env', isAsync'', hcatalog, hbelow⟩ :=
    Survey.singletonsAhead_within hwithin hahead q hq
  exact .ahead hasked.catalog hsingle hcatalog hbelow

/-! ### Derivations -/

mutual

/-- Obtaining a value makes steps of known origin, and the supply stands for the value. The induction is
on the derivation: what was obtained before stands for its values still, since steps are only added, and
the bodies begun before may use the steps they could. -/
theorem Obtains.sourced {c : Settings} {σ : Setup} {scope : Scope} {isTarget : Bool}
    {env : Environment} {p : Provider} {s s' : State} {supply : Supply} :
    Obtains c scope isTarget env p s supply s' → scope = σ.scope → σ.scope.FitsIn σ.base →
      Requested σ.among σ.base env p → s.Sourced c σ → Sources c σ p s supply s'
  | .atHand hhand, hσ, _, _, hs => by
      subst hσ
      exact ⟨hs, List.Subset.refl _, hs.standsFor_of_atHand hhand⟩
  | .parameter _, _, _, _, hs => ⟨hs, List.Subset.refl _, .parameter⟩
  | .accessor _ huses hasks, hσ, _, hasked, hs => by
      subst hσ
      exact hasks.sourced hs (lifetime_of_usesAccessor huses) hasked.among_self
  | .delegate hp _ _ hhoists heach hlookup hbody hemits, hσ, hscope, hasked, hs => by
      -- What is obtained ahead is asked for here although it is needed further down: these are
      -- singletons, and singletons may be asked for anywhere.
      obtain ⟨hsteps, -, hobtained⟩ := hhoists.same
      obtain ⟨ht, hgrows, -⟩ := heach.sourced hσ hscope
        (Hoists.requested (hσ ▸ hhoists) hasked) (hs.same hsteps hobtained)
      subst hσ
      obtain ⟨hs', hgrows', hdelivers⟩ := hemits.sourced (by rw [hp]; rfl) ht hbody.same.1 hbody.same.2
        fun carrier hcarrier => by
          -- In its own body the delegate is around, under the name that its step declares; all else
          -- that is around there was so before.
          refine ht.bears hasked (.delegate hp) hlookup hbody rfl (by rw [hcarrier]; rfl) ?_
          intro entry hentry
          rcases List.mem_cons.mp hentry with rfl | hentry
          · exact .inr ⟨_, _, hcarrier, rfl⟩
          · exact .inl hentry
      have hstands := Setup.StandsFor.made hasked.among_self hdelivers
      rw [hsteps] at hgrows
      exact ⟨hs'.afterShared (by rw [hp]; rfl) hstands, List.Subset.trans hgrows hgrows', hstands⟩
  -- An owned value met before: its function is defined, and only one more call is made.
  | .ownedAgain hp hname ht hnoted hstep, hσ, _, hasked, hs => by
      subst hσ ht
      have ht : s.afterName.Sourced c σ := hs.same rfl rfl
      obtain ⟨hs', hgrows, hstands⟩ := ht.call hp (ht.notes_of_noted hnoted) hstep hasked.among_self
        (hname ▸ isVariable_variableName _ _ _)
      exact ⟨hs', hgrows, hstands⟩
  | @Obtains.owned _ _ _ _ _ ty value isAsync name _ t u v function target body defining step hp
      hname ht _ hlookup hbody hdefining hfunction hv hstep, hσ, _, hasked, hs => by
      subst hσ ht hfunction
      have ht : s.afterName.Sourced c σ := hs.same rfl rfl
      have hu : u.afterName.Sourced c σ := ht.same hbody.same.1 hbody.same.2
      have hsteps : u.afterName.steps = s.steps := hbody.same.1
      -- The body is assembled from a state of its own, before the step that defines the function:
      -- of the plan's own steps it sees those there were when the value was met.
      have hbears : σ.Bears c u.afterName.steps defining body :=
        hsteps ▸ ht.bears hasked (.owned hp) hlookup hbody rfl (by rw [hdefining]; rfl)
          fun entry hentry => .inl hentry
      obtain ⟨hnotes, hv'⟩ := hu.define hp hdefining hbears
      rw [← hv] at hv'
      have hgrown : s.steps ⊆ v.steps := by
        rw [hv, ← hsteps]
        exact List.subset_append_left _ _
      obtain ⟨hs', hgrows, hstands⟩ :=
        hv'.call hp (by rw [hv]; exact hnotes) hstep hasked.among_self
          (hname ▸ isVariable_variableName _ _ _)
      exact ⟨hs', List.Subset.trans hgrown hgrows, hstands⟩
  | .value hp _ huses hname heach hcreates, hσ, hscope, hasked, hs => by
      -- The value's name is taken before its dependencies are obtained; its steps come after
      -- theirs, so that everything the creation uses has been delivered.
      have hnamed : s.afterName.Sourced c σ := hs.same rfl rfl
      have hbelow : ∀ r ∈ (env.enter p).requests p, ∀ q, r.provider? = some q →
          Requested σ.among σ.base (env.enter p) q :=
        fun r hr q hq => hasked.request hp huses (hσ ▸ hscope) hr hq
      obtain ⟨ht, hgrows, hsupplies⟩ := heach.sourced hσ hscope hbelow hnamed
      subst hσ
      have hhere : ∀ r ∈ (env.enter p).requests p,
          (∀ q, r.provider? = some q → q.lifetime ≠ .single) → env.enter p = σ.base :=
        fun r hr hnot => hasked.enter_here hp huses hscope hr hnot
      rw [hasked.enter_eq] at hsupplies hhere
      obtain ⟨hs', hgrows', hdelivers⟩ := hcreates.sourced ht hasked.among_self hp
        (hname ▸ isVariable_variableName _ _ _) hsupplies hhere
      have hstands := Setup.StandsFor.made hasked.among_self hdelivers
      refine ⟨hs'.afterValue hstands, ?_, ?_⟩
      · rw [State.afterValue_steps]
        exact List.Subset.trans hgrows hgrows'
      · rw [State.afterValue_steps]
        exact hstands

/-- Obtaining several values makes steps of known origin, and the supplies are what was asked for. -/
theorem ObtainsEach.sourced {c : Settings} {σ : Setup} {scope : Scope} {env : Environment}
    {requests : List Request} {s s' : State} {supplies : List (Option Supply)} :
    ObtainsEach c scope env requests s supplies s' → scope = σ.scope → σ.scope.FitsIn σ.base →
      (∀ r ∈ requests, ∀ q, r.provider? = some q → Requested σ.among σ.base env q) →
      s.Sourced c σ → s'.Sourced c σ ∧ s.steps ⊆ s'.steps ∧
        List.Forall₂ (σ.Supplies s'.steps) requests supplies
  | .nil, _, _, _, hs => ⟨hs, List.Subset.refl _, .nil⟩
  | .supplied hprovider head tail, hσ, hscope, hasked, hs => by
      have hq := hasked _ List.mem_cons_self _ hprovider
      obtain ⟨ht, hgrows, hstands⟩ := head.sourced hσ hscope hq hs
      obtain ⟨hs', hgrows', hsupplies⟩ :=
        tail.sourced hσ hscope (fun r hr => hasked r (List.mem_cons_of_mem _ hr)) ht
      exact ⟨hs', List.Subset.trans hgrows hgrows',
        .cons (.supplied hprovider hq.among_self (hstands.mono hgrows')) hsupplies⟩
  | .leftOut hprovider hoptional tail, hσ, hscope, hasked, hs => by
      obtain ⟨hs', hgrows, hsupplies⟩ :=
        tail.sourced hσ hscope (fun r hr => hasked r (List.mem_cons_of_mem _ hr)) hs
      exact ⟨hs', hgrows, .cons (.leftOut hprovider hoptional) hsupplies⟩

end

/-! ### Plans -/

/-- The steps of an assembled plan are of known origin, and its target stands for the value that was
asked for. -/
theorem Assembled.origins {target : Provider} {plan : Plan} (h : Assembled c σ target plan) :
    (∀ step ∈ plan.steps, σ.Origin c plan.steps step) ∧ σ.among target ∧ ∃ supply,
      σ.StandsFor plan.steps target.identity supply ∧ supply.name = plan.target := by
  obtain ⟨hassembles, hscope, hasked, hknown⟩ := h
  cases hassembles with
  | body hobtains harranges =>
      obtain ⟨ht, -, hstands⟩ := hobtains.sourced rfl hscope hasked (.start hknown _)
      have hmem := harranges.perm.symm.subset
      exact ⟨fun step hstep => (ht.steps step (harranges.perm.subset hstep)).mono hmem,
        hasked.among_self, _, hstands.mono hmem, rfl⟩

/-- The setup of a plan in a tree: the plans around hold what may be used, and the delegates whose
bodies are around. -/
structure Setup.Surrounded (σ : Setup) (around : List (Plan × Step)) (τ : Setup) : Prop where
  among : τ.among = σ.among
  base : τ.base = σ.base.within around
  outside : ∀ step ∈ τ.outside, step ∈ σ.outside ∨ ∃ level ∈ around, step ∈ level.1.steps
  delegates : ∀ entry ∈ τ.scope.around, entry ∈ σ.scope.around ∨ ∃ level ∈ around,
    ∃ p body registry, level.2.statement = .delegate entry.2 p body registry ∧ entry.1 = p.identity

/-- A step with a body bears it. -/
theorem Setup.Origin.bears {steps : List Step} {step : Step} {body : Plan}
    (h : σ.Origin c steps step) (hbody : step.statement.body? = some body) :
    σ.Bears c steps step body := by
  cases h with
  | delegates hstatement hbears _ _ =>
      rw [hstatement] at hbody
      cases hbody
      exact hbears
  | defines hstatement hbears _ =>
      rw [hstatement] at hbody
      cases hbody
      exact hbears
  | _ => simp_all [Statement.body?]

/-- A body in a plan that is surrounded is surrounded by that plan too. -/
theorem Setup.Surrounded.inside {τ : Setup} {around : List (Plan × Step)} {plan : Plan} {carrier : Step}
    {p : Provider} {scope : Scope} (h : σ.Surrounded around τ)
    (hp : carrier.statement.provider? = some p)
    (haround : ∀ entry ∈ scope.around, entry ∈ τ.scope.around ∨
      ∃ body registry, carrier.statement = .delegate entry.2 p body registry ∧ entry.1 = p.identity) :
    σ.Surrounded ((plan, carrier) :: around) (τ.inside p scope plan.steps) := by
  obtain ⟨hamong, hbase, houtside, hdelegates⟩ := h
  refine ⟨hamong, ?_, fun step hstep => ?_, fun entry hentry => ?_⟩
  · simp [Environment.within, hp, Setup.inside, hbase]
  · rcases List.mem_append.mp hstep with hstep | hstep
    · refine (houtside step hstep).imp_right ?_
      rintro ⟨level, hlevel, hmem⟩
      exact ⟨level, List.mem_cons_of_mem _ hlevel, hmem⟩
    · exact .inr ⟨(plan, carrier), List.mem_cons_self, hstep⟩
  · rcases haround entry hentry with hentry | ⟨body', registry, hstatement, hi⟩
    · refine (hdelegates entry hentry).imp_right ?_
      rintro ⟨level, hlevel, hrest⟩
      exact ⟨level, List.mem_cons_of_mem _ hlevel, hrest⟩
    · exact .inr ⟨(plan, carrier), List.mem_cons_self, _, body', registry, hstatement, hi⟩

/-- Every plan in the tree was assembled like the whole. -/
theorem Assembled.within {target : Provider} {root nested : Plan} {around : List (Plan × Step)}
    (h : Assembled c σ target root) (hwithin : root.Within around nested) :
    ∃ τ target, Assembled c τ target nested ∧ σ.Surrounded around τ := by
  induction hwithin with
  | root =>
      exact ⟨σ, target, h, rfl, rfl, fun _ hstep => .inl hstep, fun _ hentry => .inl hentry⟩
  | body _ hcarrier hbody ih =>
      obtain ⟨τ, _, hplan, hsurrounded⟩ := ih
      obtain ⟨hp, haround, -, -, -, hassembled⟩ := (hplan.origins.1 _ hcarrier).bears hbody
      exact ⟨_, _, hassembled, hsurrounded.inside hp haround⟩

/-- The setup of a plan that resolves a provider: where it is asked for, with nothing around. -/
def Setup.ofResolution (among : Provider → Prop) (env : Environment) (isAsync : Bool) : Setup where
  among := among
  base := env
  scope := { asyncRelease := isAsync, isAsync, around := [], accessorOf? := none }
  outside := []

/-- The plan of a resolution was assembled among the providers below the request. -/
theorem planResolution_assembled {config : Config} {trigger : Trigger} {isAsync waits : Bool}
    {target : Provider} {plan : Plan} {among : Provider → Prop}
    (h : planResolution config trigger env isAsync target = .ok plan)
    (hbelow : (Place.mk env waits (Environment.given target)).Within among) :
    Assembled (.ofConfig config trigger env) (.ofResolution among env isAsync) target plan := by
  unfold planResolution at h
  obtain ⟨s, hassembles⟩ := run_sound h
  exact .intro hassembles (.inl rfl) ⟨rfl, fun _ => rfl, waits, hbelow⟩
    fun _ hmem => absurd hmem List.not_mem_nil

/-- A plan in the tree of a resolution's plan, and the setup in which it was assembled, among the
providers below the request. -/
structure Embedded (c : Settings) (among : Provider → Prop) (env : Environment) (root : Plan)
    (around : List (Plan × Step)) (plan : Plan) (τ : Setup) : Prop where
  distinct : root.Distinct
  within : root.Within around plan
  assembled : ∃ target, Assembled c τ target plan
  among : τ.among = among
  base : τ.base = env.within around
  outside : ∀ step ∈ τ.outside, ∃ level ∈ around, step ∈ level.1.steps
  delegates : ∀ entry ∈ τ.scope.around, ∃ level ∈ around, ∃ p body registry,
    level.2.statement = .delegate entry.2 p body registry ∧ entry.1 = p.identity

/-- Every plan in the tree of a resolution's plan was assembled in some setup. -/
theorem planResolution_embedded {config : Config} {trigger : Trigger} {isAsync waits : Bool}
    {target : Provider} {plan nested : Plan} {around : List (Plan × Step)} {among : Provider → Prop}
    (h : planResolution config trigger env isAsync target = .ok plan)
    (hbelow : (Place.mk env waits (Environment.given target)).Within among)
    (hwithin : plan.Within around nested) :
    ∃ τ, Embedded (.ofConfig config trigger env) among env plan around nested τ := by
  obtain ⟨τ, value, hnested, hamong, hbase, houtside, hdelegates⟩ :=
    (planResolution_assembled h hbelow).within hwithin
  exact ⟨τ, planResolution_distinct h, hwithin, ⟨value, hnested⟩, hamong, hbase,
    fun step hstep => (houtside step hstep).resolve_left List.not_mem_nil,
    fun entry hentry => (hdelegates entry hentry).resolve_left List.not_mem_nil⟩

/-- Nothing has to be demanded of the providers for that. -/
theorem planResolution_embedded_anyhow {config : Config} {trigger : Trigger} {isAsync : Bool}
    {target : Provider} {plan nested : Plan} {around : List (Plan × Step)}
    (h : planResolution config trigger env isAsync target = .ok plan)
    (hwithin : plan.Within around nested) :
    ∃ τ, Embedded (.ofConfig config trigger env) (fun _ => True) env plan around nested τ := by
  have hbelow : (Place.mk env true (Environment.given target)).Within fun _ => True :=
    fun _ _ _ _ => trivial
  exact planResolution_embedded h hbelow hwithin

namespace Embedded

variable {among : Provider → Prop} {root plan : Plan} {around : List (Plan × Step)} {τ : Setup}
  {a b : Step} {name : String}

theorem origin (h : Embedded c among env root around plan τ) (ha : a ∈ plan.steps) :
    τ.Origin c plan.steps a :=
  let ⟨_, hassembled⟩ := h.assembled
  hassembled.origins.1 a ha

/-- The name tells the step. -/
theorem eq_of_assigned (h : Embedded c among env root around plan τ) (ha : a ∈ plan.steps)
    (hb : b ∈ plan.steps) (haname : a.statement.assigned? = some name)
    (hbname : b.statement.assigned? = some name) : a = b :=
  Wiring.eq_of_assigned h.distinct.names (h.within.mem_tree ha) (h.within.mem_tree hb) haname
    hbname

/-- Steps from outside assign no name that the plan or a body in it assigns. -/
theorem outside_not_assigned (h : Embedded c among env root around plan τ) (ha : a ∈ τ.outside)
    (hb : b ∈ plan.tree) (hname : b.statement.assigned? = some name) :
    a.statement.assigned? ≠ some name := by
  intro haname
  obtain ⟨⟨plan', carrier⟩, hlevel, ha⟩ := h.outside a ha
  exact h.distinct.not_assigned h.within hlevel ha haname hb hname

/-- The delegates around have names that the plan and the bodies in it do not assign. -/
theorem delegate_not_assigned (h : Embedded c among env root around plan τ)
    {entry : Provider.Identity × String} (hentry : entry ∈ τ.scope.around) (hb : b ∈ plan.tree) :
    b.statement.assigned? ≠ some entry.2 := by
  obtain ⟨⟨plan', carrier⟩, hlevel, p, body, registry, hstatement, -⟩ := h.delegates entry hentry
  obtain ⟨-, -, hcarrier, -⟩ := h.within.of_mem hlevel
  exact h.distinct.not_assigned h.within hlevel hcarrier (by rw [hstatement]; rfl) hb

end Embedded

end Assembly

end Wiring
