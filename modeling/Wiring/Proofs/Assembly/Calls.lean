import Mathlib
import Wiring.Declarations
import Wiring.Proofs.Assembly.Derivation

/-!
# How deep the assembly of a plan goes

To obtain a value the assembly follows further requests: those of its arguments, those of the
singletons ahead of a delegate, and in the end the one of a body. The depth of the settings bounds how
many requests follow one another within a body. Each body is a plan of its own and is allowed the whole
depth again, so the chain as a whole grows with the bodies entered.

* `Call` — a request as the assembly follows it.
* `Call.Makes`, `Call.Begins` — the calls made within the same plan, and the one that begins a body.
* `Call.Makes.succeeds`, `Call.Begins.succeeds` — where a call succeeds, so do those it leads to.
* `Call.Chain` — calls that follow one another, with the number of steps.
* `planResolution_callDepth` — how long the chains are where a plan is there.
* `planResolution_calls_deeper` — a chain longer than the depth of the settings.
-/

namespace Wiring

namespace Assembly

open Run

/-- Which singletons come ahead of a delegate is settled by the state. -/
theorem Hoists.unique {c : Settings} {scope : Scope} {env : Environment} {p : Provider} {isAsync : Bool}
    {s t t' : State} {ahead ahead' : List Provider} (h : Hoists c scope env p isAsync s ahead t)
    (h' : Hoists c scope env p isAsync s ahead' t') : ahead = ahead' ∧ t = t' := by
  unfold Hoists at h h'
  split at h
  · rename_i hwaits
    rw [if_pos hwaits] at h'
    obtain ⟨answers, hahead, rfl⟩ := h
    obtain ⟨answers', hahead', rfl⟩ := h'
    cases hahead.symm.trans hahead'
    exact ⟨rfl, rfl⟩
  · rename_i hwaits
    rw [if_neg hwaits] at h'
    obtain ⟨rfl, rfl⟩ := h
    obtain ⟨rfl, rfl⟩ := h'
    exact ⟨rfl, rfl⟩

/-! ### Calls -/

/-- A request as the assembly follows it, with all that decides how it goes on. -/
structure Call where
  /-- How many bodies may still be nested. -/
  nesting : Nat
  /-- How many requests may still follow one another, this one included. -/
  budget : Nat
  scope : Scope
  /-- Whether the plan is for the value requested. -/
  isTarget : Bool
  env : Environment
  request : Request

namespace Call

variable {c : Settings} {call next : Call} {s s' t : State}

/-- The part of the assembly that follows the request. -/
def run (c : Settings) (call : Call) : Assemble (Option Supply) :=
  match call.request.provider? with
  | some p =>
      some <$> obtain c (assemble c call.nesting) call.scope call.budget call.isTarget call.env p
  | none => obtain.leaveOut c call.budget call.request

/-- Followed in a state, the request is met. -/
def Succeeds (c : Settings) (call : Call) (s : State) : Prop :=
  ∃ supply t, call.run c s = .ok supply t

/-- The call has to make the value of a provider: it is neither at hand nor asked for at an accessor. -/
structure Opens (call : Call) (s : State) (p : Provider) : Prop where
  provider : call.request.provider? = some p
  hand : atHand call.scope p s.obtained = none
  accessor : usesAccessor call.scope call.isTarget p = false

/-- The call for a further request in the same plan. -/
def follow (call : Call) (env : Environment) (r : Request) : Call :=
  { call with budget := call.budget - 1, isTarget := false, env, request := r }

/-- The call for the value of a body. -/
def ofBody (c : Settings) (nesting : Nat) (scope : Scope) (env : Environment) (target : Provider) :
    Call where
  nesting := nesting
  budget := c.maxDepth + 1
  scope := scope
  isTarget := true
  env := env
  request := Environment.given target

/-- Further requests of the same plan are followed, one after the other. -/
def FollowsEach (c : Settings) (call : Call) (env : Environment) :
    List Request → State → List (Option Supply) → State → Prop :=
  Each fun r s supply t => (call.follow env r).run c s = .ok supply t

/-- The calls that a call makes within the same plan: one for each dependency of a created value, and one
for each singleton ahead of a delegate, each after those before it. -/
inductive Makes (c : Settings) (call : Call) (s : State) : Call → State → Prop
  | argument {p : Provider} {before after : List Request} {r : Request}
      {supplies : List (Option Supply)} {t : State} (hopens : call.Opens s p)
      (hp : p.isCreated = true) (hrequests : (call.env.enter p).requests p = before ++ r :: after)
      (hbefore : call.FollowsEach c (call.env.enter p) before s.afterName supplies t) :
      Makes c call s (call.follow (call.env.enter p) r) t
  | ahead {p : Provider} {ty result : Ty} {params : List Parameter} {isAsync : Bool}
      {before after : List Provider} {q : Provider} {supplies : List (Option Supply)} {s' t : State}
      (hopens : call.Opens s p) (hp : p = .delegate ty result params isAsync)
      (hhoists : Hoists c call.scope call.env p isAsync s.afterName (before ++ q :: after) s')
      (hbefore : call.FollowsEach c call.env (before.map Environment.given) s' supplies t) :
      Makes c call s (call.follow call.env (Environment.given q)) t

/-- The first dependency of a created value is followed at once. -/
theorem Makes.first {p : Provider} {r : Request} {after : List Request} (hopens : call.Opens s p)
    (hp : p.isCreated = true) (hrequests : (call.env.enter p).requests p = r :: after) :
    call.Makes c s (call.follow (call.env.enter p) r) s.afterName :=
  .argument hopens hp (show _ = [] ++ r :: after from hrequests) .nil

/-- The call for the value of a body, begun by a call for a delegate or for an owned value whose function
is not there yet. -/
inductive Begins (c : Settings) (call : Call) (s : State) : Call → State → Prop
  | delegate {p target : Provider} {ty result : Ty} {params : List Parameter} {isAsync : Bool}
      {ahead : List Provider} {supplies : List (Option Supply)} {s' t : State}
      (hopens : call.Opens s p) (hp : p = .delegate ty result params isAsync)
      (hhoists : Hoists c call.scope call.env p isAsync s.afterName ahead s')
      (heach : call.FollowsEach c call.env (ahead.map Environment.given) s' supplies t)
      (hlookup : (call.env.enter p).lookup result = some target) :
      Begins c call s (ofBody c (call.nesting - 1)
        (call.scope.ofDelegate p isAsync (variableName ty call.env s.named)) (call.env.enter p) target)
        (t.forBody t.singletons)
  | owned {p target : Provider} {ty value : Ty} {isAsync : Bool} (hopens : call.Opens s p)
      (hp : p = .owned ty value isAsync)
      (hnew : (s.obtained.find? fun entry => entry.1 = p.identity) = none)
      (hlookup : (call.env.enter p).lookup value = some target) :
      Begins c call s (ofBody c (call.nesting - 1) (call.scope.ofOwned isAsync) (call.env.enter p) target)
        (s.afterName.forBody s.singletons)

/-! ### Calls that succeed -/

theorem Succeeds.budget_pos (h : call.Succeeds c s) : 0 < call.budget := by
  obtain ⟨supply, t, hrun⟩ := h
  refine Nat.pos_of_ne_zero fun hzero => ?_
  unfold run at hrun
  cases hprovider : call.request.provider? with
  | some p =>
      rw [hprovider, hzero] at hrun
      obtain ⟨_, hobtain, -⟩ := map_ok.mp hrun
      exact exhausted_ok hobtain
  | none =>
      rw [hprovider, hzero] at hrun
      obtain ⟨_, _, hexhausted, -⟩ := bind_ok.mp hrun
      exact exhausted_ok hexhausted

/-- Makes the value of a provider that is neither at hand nor asked for at an accessor. -/
def makeValue (c : Settings) (call : Call) (p : Provider) : Assemble Supply :=
  match p with
  | .parameter _ name _ => pure ⟨name, none⟩
  | .delegate ty result _ isAsync =>
      delegateValue c (assemble c call.nesting) call.scope (call.budget - 1) call.env p ty result isAsync
  | .owned ty value isAsync =>
      ownedValue (assemble c call.nesting) call.scope call.env p ty value isAsync
  | _ => createdValue c (assemble c call.nesting) call.scope (call.budget - 1) call.env p

theorem Succeeds.makeValue {p : Provider} (h : call.Succeeds c s) (hopens : call.Opens s p) :
    ∃ supply t, call.makeValue c p s = .ok supply t := by
  obtain ⟨hprovider, hhand, huses⟩ := hopens
  obtain ⟨budget, hbudget⟩ := Nat.exists_eq_add_one_of_ne_zero h.budget_pos.ne'
  obtain ⟨supply, t, hrun⟩ := h
  unfold run at hrun
  rw [hprovider, hbudget] at hrun
  obtain ⟨supply, hobtain, -⟩ := map_ok.mp hrun
  unfold obtain at hobtain
  obtain ⟨_, u, hcheck, h₁⟩ := bind_ok.mp hobtain
  obtain rfl := checkpoint_ok hcheck
  obtain ⟨hand, v, hatHand, h₂⟩ := bind_ok.mp h₁
  cases (atHand?_run call.scope p u).symm.trans hatHand
  rw [hhand] at h₂
  simp only [huses, Bool.false_eq_true, if_false] at h₂
  refine ⟨supply, t, ?_⟩
  unfold Call.makeValue
  rw [hbudget]
  cases p <;> exact h₂

/-- A created value is made from its arguments, each of which is obtained by a call of its own. -/
theorem Succeeds.arguments {p : Provider} (h : call.Succeeds c s) (hopens : call.Opens s p)
    (hp : p.isCreated = true) :
    ∃ supplies t, call.FollowsEach c (call.env.enter p) ((call.env.enter p).requests p) s.afterName
      supplies t := by
  obtain ⟨supply, t, hmade⟩ := h.makeValue hopens
  have hcreated : createdValue c (assemble c call.nesting) call.scope (call.budget - 1) call.env p s =
      .ok supply t := by
    cases p <;> first | exact hmade | cases hp
  obtain ⟨name, s₁, hname, h₁⟩ := bind_ok.mp hcreated
  obtain ⟨rfl, rfl⟩ := newVariable_ok hname
  obtain ⟨supplies, u, hsupplies, -⟩ := bind_ok.mp h₁
  exact ⟨supplies, u, mapM_ok hsupplies⟩

/-- Providers at hand are obtained by calls of their own. -/
theorem FollowsEach.of_given {env : Environment} {providers : List Provider} {supplies : List Supply}
    (h : Each (fun q s supply t => obtain c (assemble c call.nesting) call.scope (call.budget - 1) false
      env q s = .ok supply t) providers s supplies t) :
    call.FollowsEach c env (providers.map Environment.given) s (supplies.map some) t := by
  induction h with
  | nil => exact .nil
  | cons head _ ih => exact .cons (map_ok.mpr ⟨_, head, rfl⟩) ih

/-- A delegate is made after the singletons ahead, each of which is obtained by a call of its own; then
its body is assembled. -/
theorem Succeeds.body_of_delegate {ty result : Ty} {params : List Parameter} {isAsync : Bool}
    {p : Provider} (h : call.Succeeds c s) (hopens : call.Opens s p)
    (hp : p = .delegate ty result params isAsync) :
    ∃ ahead s' supplies t target body u, Hoists c call.scope call.env p isAsync s.afterName ahead s' ∧
      call.FollowsEach c call.env (ahead.map Environment.given) s' supplies t ∧
      (call.env.enter p).lookup result = some target ∧
      assemble c call.nesting (call.scope.ofDelegate p isAsync (variableName ty call.env s.named))
        (call.env.enter p) target t.singletons t = .ok body u := by
  obtain ⟨supply, v, hmade⟩ := h.makeValue hopens
  have hdelegate : delegateValue c (assemble c call.nesting) call.scope (call.budget - 1) call.env p ty
      result isAsync s = .ok supply v := by
    subst hp
    exact hmade
  obtain ⟨ahead, s', hhoists, hafter⟩ := delegateAfter_ok hdelegate
  obtain ⟨supplies, t, hsupplies, h₁⟩ := bind_ok.mp hafter
  obtain ⟨step, w, hstep, -⟩ := bind_ok.mp h₁
  obtain ⟨target, body, u, hlookup, hbody, -⟩ := createDelegate_ok hstep
  exact ⟨ahead, s', _, t, target, body, u, hhoists, .of_given (mapM_ok hsupplies), hlookup, hbody⟩

/-- An owned value whose function is not there yet is made around its body. -/
theorem Succeeds.body_of_owned {ty value : Ty} {isAsync : Bool} {p : Provider}
    (h : call.Succeeds c s) (hopens : call.Opens s p) (hp : p = .owned ty value isAsync)
    (hnew : (s.obtained.find? fun entry => entry.1 = p.identity) = none) :
    ∃ target body u, (call.env.enter p).lookup value = some target ∧
      assemble c call.nesting (call.scope.ofOwned isAsync) (call.env.enter p) target s.singletons
        s.afterName = .ok body u := by
  obtain ⟨supply, v, hmade⟩ := h.makeValue hopens
  have howned : ownedValue (assemble c call.nesting) call.scope call.env p ty value isAsync s =
      .ok supply v := by
    subst hp
    exact hmade
  obtain ⟨name, s₁, hname, h₁⟩ := bind_ok.mp howned
  obtain ⟨rfl, rfl⟩ := newVariable_ok hname
  obtain ⟨step, w, hstep, -⟩ := bind_ok.mp h₁
  obtain ⟨function, t, hcases, -, -⟩ := createOwned_ok hstep
  rcases hcases with ⟨hnoted, -⟩ | ⟨target, body, u, defining, -, hlookup, hbody, -⟩
  · rw [State.afterName_obtained, hnew] at hnoted
    cases hnoted
  · exact ⟨target, body, u, hlookup, hbody⟩

/-- Where a body is assembled, the call for its value succeeds. -/
theorem ofBody_succeeds {nesting : Nat} {scope : Scope} {env : Environment} {target : Provider}
    {known : List (Provider.Identity × Supply)} {body : Plan} {u : State}
    (h : assemble c nesting scope env target known s = .ok body u) :
    (ofBody c (nesting - 1) scope env target).Succeeds c (s.forBody known) := by
  cases nesting with
  | zero => exact absurd h throw_ok
  | succ nesting =>
      rw [assemble] at h
      obtain ⟨supply, t, hobtain, -⟩ := bind_ok.mp (show
        (obtain c (assemble c nesting) scope (c.maxDepth + 1) true env target >>= _)
          (s.forBody known) = .ok body u from h)
      exact ⟨some supply, t, map_ok.mpr ⟨supply, hobtain, rfl⟩⟩

/-- The calls that a call makes succeed with it, and each has one request less to go. -/
theorem Makes.succeeds (h : call.Makes c s next t) (hs : call.Succeeds c s) :
    next.Succeeds c t ∧ next.budget + 1 = call.budget := by
  have hpos := hs.budget_pos
  cases h with
  | argument hopens hp hrequests hbefore =>
      obtain ⟨supplies, u, hall⟩ := hs.arguments hopens hp
      rw [hrequests] at hall
      obtain ⟨supply, v, hrun⟩ := hall.ok_at hbefore
      exact ⟨⟨supply, v, hrun⟩, Nat.succ_pred_eq_of_pos hpos⟩
  | ahead hopens hp hhoists hbefore =>
      obtain ⟨ahead, s', supplies, u, _, _, _, hhoists', hall, -⟩ := hs.body_of_delegate hopens hp
      obtain ⟨rfl, rfl⟩ := hhoists.unique hhoists'
      rw [List.map_append, List.map_cons] at hall
      obtain ⟨supply, v, hrun⟩ := hall.ok_at hbefore
      exact ⟨⟨supply, v, hrun⟩, Nat.succ_pred_eq_of_pos hpos⟩

/-- The call for a body succeeds with the call that begins it. It may go as deep as any other. -/
theorem Begins.succeeds (h : call.Begins c s next t) (hs : call.Succeeds c s) :
    next.Succeeds c t ∧ next.budget = c.maxDepth + 1 := by
  cases h with
  | delegate hopens hp hhoists heach hlookup =>
      obtain ⟨ahead, s', supplies, t, target, body, u, hhoists', heach', hlookup', hbody⟩ :=
        hs.body_of_delegate hopens hp
      obtain ⟨rfl, rfl⟩ := hhoists.unique hhoists'
      obtain rfl := heach.unique heach'
      cases hlookup.symm.trans hlookup'
      exact ⟨ofBody_succeeds hbody, rfl⟩
  | owned hopens hp hnew hlookup =>
      obtain ⟨target, body, u, hlookup', hbody⟩ := hs.body_of_owned hopens hp hnew
      cases hlookup.symm.trans hlookup'
      exact ⟨ofBody_succeeds hbody, rfl⟩

/-! ### Chains of calls -/

/-- Calls that follow one another from a first one: how many steps there are to the last one, how many of
them begin a body, and how many there are since the last that does. -/
inductive Chain (c : Settings) (root : Call) (start : State) :
    (total bodies since : Nat) → Call → State → Prop
  | root : Chain c root start 0 0 0 root start
  | makes {total bodies since : Nat} {call next : Call} {s t : State}
      (h : Chain c root start total bodies since call s) (hnext : call.Makes c s next t) :
      Chain c root start (total + 1) bodies (since + 1) next t
  | begins {total bodies since : Nat} {call next : Call} {s t : State}
      (h : Chain c root start total bodies since call s) (hnext : call.Begins c s next t) :
      Chain c root start (total + 1) (bodies + 1) 0 next t

/-- Along a chain from a call that succeeds, every call succeeds, and the steps since the last body are
what it has used up of its budget. -/
theorem Chain.succeeds {root : Call} {start : State} {total bodies since : Nat}
    (h : Chain c root start total bodies since call s) (hroot : root.Succeeds c start)
    (hbudget : root.budget = c.maxDepth + 1) :
    call.Succeeds c s ∧ call.budget + since = c.maxDepth + 1 ∧
      total ≤ bodies * (c.maxDepth + 1) + since := by
  induction h with
  | root => exact ⟨hroot, hbudget, Nat.zero_le _⟩
  | makes _ hnext ih =>
      obtain ⟨hs, hused, htotal⟩ := ih
      obtain ⟨hs', hless⟩ := hnext.succeeds hs
      exact ⟨hs', by omega, by omega⟩
  | begins _ hnext ih =>
      obtain ⟨hs, hused, htotal⟩ := ih
      obtain ⟨hs', hwhole⟩ := hnext.succeeds hs
      have hpos := hs.budget_pos
      refine ⟨hs', by omega, ?_⟩
      rw [Nat.succ_mul]
      omega

/-- The call for the value of a resolution. -/
def ofResolution (config : Config) (trigger : Trigger) (env : Environment) (isAsync : Bool)
    (target : Provider) : Call :=
  let c := Settings.ofConfig config trigger env
  ofBody c c.maxNesting { asyncRelease := isAsync, isAsync, around := [], accessorOf? := none } env target

theorem ofResolution_succeeds {config : Config} {trigger : Trigger} {env : Environment} {isAsync : Bool}
    {target : Provider} {plan : Plan} (h : planResolution config trigger env isAsync target = .ok plan) :
    (ofResolution config trigger env isAsync target).Succeeds (.ofConfig config trigger env)
      .initial := by
  unfold planResolution Assembly.run at h
  obtain ⟨s, hassembles⟩ := answer_ok h
  have hsucceeds := ofBody_succeeds hassembles
  rw [Nat.add_sub_cancel] at hsucceeds
  exact hsucceeds

end Call

end Assembly

/-- Where a resolution has a plan, no more requests follow one another within a body than the settings
allow. Counted through the bodies, a chain of requests may be longer by that much, and by the step into
the body, for each body entered. -/
theorem planResolution_callDepth (config : Config) (trigger : Trigger) (env : Environment)
    (isAsync : Bool) (target : Provider) (plan : Plan)
    (h : planResolution config trigger env isAsync target = .ok plan) (total bodies since : Nat)
    (call : Assembly.Call) (s : Assembly.State)
    (hchain : Assembly.Call.Chain (.ofConfig config trigger env)
      (.ofResolution config trigger env isAsync target) .initial total bodies since call s) :
    since ≤ config.maxDepth ∧ total ≤ bodies * (config.maxDepth + 1) + config.maxDepth := by
  obtain ⟨hs, hused, htotal⟩ := hchain.succeeds (Assembly.Call.ofResolution_succeeds h) rfl
  have hpos := hs.budget_pos
  have hdepth : (Assembly.Settings.ofConfig config trigger env).maxDepth = config.maxDepth := rfl
  rw [hdepth] at hused htotal
  omega

/-- A delegate, the value of its body and what that needs: one body on the way, before it and in it as
many requests as the settings allow. -/
theorem planResolution_callDepth_body :
    let a : Ty := .plain "A"
    let b : Ty := .plain "B"
    let r : Ty := .plain "R"
    let needs (tys : List Ty) : List Parameter := tys.map fun ty => ⟨"", 0, ty, false⟩
    let env := ((({} : Declarations).addConstructor (.new a []) .resolution {})
      |>.addConstructor (.new b (needs [a])) .resolution {}
      |>.addConstructor (.new r (needs [.delegate [] b false])) .resolution {}).build
    let config : Config := { maxDepth := 1 }
    ∃ target plan call s, env.lookup r = some target ∧
      planResolution config .never env false target = .ok plan ∧
      Assembly.Call.Chain (.ofConfig config .never env)
        (.ofResolution config .never env false target) .initial 3 1 1 call s ∧
      1 ≤ config.maxDepth ∧ 3 ≤ 1 * (config.maxDepth + 1) + config.maxDepth := by
  intro a b r needs env config
  let made (site : Nat) (ty : Ty) (tys : List Ty) : Provider :=
    .construct (some site) ⟨ty, .resolution, .new ty (needs tys), false, false, .none⟩
  let target := made 2 r [.delegate [] b false]
  let delegate : Provider := .delegate (.delegate [] b false) b [] false
  have hsteps : (planResolution config .never env false target).toOption.map
      (fun plan => plan.steps.length) = some 2 := by cbv
  obtain ⟨plan, hplan, -⟩ := Option.map_eq_some_iff.mp hsteps
  have hok := Run.ok_of_toOption hplan
  have hdelegate : env.lookup (.delegate [] b false) = some delegate := by cbv
  have hb : (env.enter delegate).lookup b = some (made 1 b [a]) := by cbv
  -- The root asks for the delegate, its body is for the second value, and that asks for the first.
  have hroot : Assembly.Call.Chain (.ofConfig config .never env)
      (.ofResolution config .never env false target) .initial 0 0 0
      (.ofResolution config .never env false target) .initial := .root
  have hargument := hroot.makes (.first (p := target) ⟨rfl, rfl, rfl⟩ rfl rfl)
  have hbody := hargument.begins (.delegate ⟨hdelegate, rfl, rfl⟩ rfl ⟨rfl, rfl⟩ .nil hb)
  have hchain := hbody.makes (.first (p := made 1 b [a]) ⟨rfl, rfl, rfl⟩ rfl rfl)
  exact ⟨target, plan, _, _, by cbv, hok, hchain,
    planResolution_callDepth config .never env false target plan hok 3 1 1 _ _ hchain⟩

/-- A plan is there, though a request follows on two others where the settings allow for one: the value of
an owned value that is owned. -/
theorem planResolution_calls_deeper :
    let a : Ty := .plain "A"
    let env := (({} : Declarations).addConstructor (.new a []) .resolution {}).build
    let config : Config := { maxDepth := 1 }
    ∃ target plan call s, env.lookup (.owned (.owned a false) false) = some target ∧
      planResolution config .never env false target = .ok plan ∧
      Assembly.Call.Chain (.ofConfig config .never env)
        (.ofResolution config .never env false target) .initial 2 2 0 call s ∧
      ¬ 2 ≤ config.maxDepth := by
  intro a env config
  let owned (ty : Ty) : Provider := .owned (.owned ty false) ty false
  have hsteps : (planResolution config .never env false (owned (.owned a false))).toOption.map
      (fun plan => plan.steps.length) = some 2 := by cbv
  obtain ⟨plan, hplan, -⟩ := Option.map_eq_some_iff.mp hsteps
  have hinner : (env.enter (owned (.owned a false))).lookup (.owned a false) = some (owned a) := by cbv
  have ha : ((env.enter (owned (.owned a false))).enter (owned a)).lookup a =
      some (.construct (some 0) ⟨a, .resolution, .new a [], false, false, .none⟩) := by cbv
  have hroot : Assembly.Call.Chain (.ofConfig config .never env)
      (.ofResolution config .never env false (owned (.owned a false))) .initial 0 0 0
      (.ofResolution config .never env false (owned (.owned a false))) .initial := .root
  have houter := hroot.begins (.owned ⟨rfl, rfl, rfl⟩ rfl rfl hinner)
  have hchain := houter.begins (.owned ⟨rfl, rfl, rfl⟩ rfl rfl ha)
  exact ⟨_, plan, _, _, by cbv, Run.ok_of_toOption hplan, hchain, by decide⟩

end Wiring
