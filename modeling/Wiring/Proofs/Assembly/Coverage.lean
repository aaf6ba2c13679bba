import Wiring.Proofs.Assembly.Calm
import Wiring.Proofs.Assembly.Origin

/-!
# Plans leave nothing out

Each dependency of a value that a plan makes is made there as well, or it is at hand: a parameter, a
delegate around or a singleton. Where a synchronous body makes nothing that takes waiting for, its
dependencies take no waiting for either, up to singletons.

* `Plan.IsImmediate` — nothing in the plan takes waiting for.
* `Plan.Makes` — the places whose values are made in the tree of a plan.
* `Served` — what a place requests is made or at hand.
* `Assembled.served_next` — the dependencies of what is made are served.
* `Assembled.served_target` — so is the value of the plan.
-/

namespace Wiring

/-! ### What takes waiting for -/

/-- The statement takes no waiting for: it does not suspend, and it makes no owned value whose body
waits. -/
def Statement.isImmediate : Statement → Bool
  | .ownedFunction _ p _ _ | .owned _ p _ _ => !p.isAsync
  | statement => statement.isQuiet

/-- Nothing in the plan takes waiting for; what is in its bodies is not considered. -/
def Plan.IsImmediate (plan : Plan) : Prop :=
  ∀ step ∈ plan.steps, step.statement.isImmediate = true

/-- In the tree of the plan nothing in a synchronous body takes waiting for. -/
def Plan.HasImmediateBodies (root : Plan) : Prop :=
  ∀ around plan carrier body, root.Within around plan → carrier ∈ plan.steps →
    carrier.statement.body? = some body → carrier.statement.isBodyAsync = false → body.IsImmediate

/-- The provider whose value a statement makes; a singleton asked for is not made. -/
def Statement.made? : Statement → Option Provider
  | .delegate _ p _ _ | .create _ p _ | .owned _ p _ _ => some p
  | .single .. | .registry .. | .ownedFunction .. | .start .. | .await .. => none

namespace Statement

variable {statement : Statement} {p : Provider}

theorem made_of_value (h : statement.value? = some p) :
    (∃ name isAsync, statement = .single name p isAsync) ∨ statement.made? = some p := by
  unfold value? at h
  split at h <;> cases h
  · exact .inl ⟨_, _, rfl⟩
  all_goals exact .inr rfl

/-- Of what takes waiting for, an immediate statement makes delegates only. -/
theorem isImmediate_made (himmediate : statement.isImmediate = true) (h : statement.made? = some p) :
    p.isAsync = false ∨ ∃ name body registry, statement = .delegate name p body registry := by
  unfold made? at h
  split at h <;> cases h
  · exact .inr ⟨_, _, _, rfl⟩
  · exact .inl (by simpa [isImmediate, isQuiet] using himmediate)
  · exact .inl (by simpa [isImmediate] using himmediate)

end Statement

/-! ### What is made and what is at hand -/

/-- The value requested at a place is made by a step in the tree of the plan, at the top of which waiting
is taken to be possible. -/
inductive Plan.Makes (among : Provider → Prop) (env : Environment) (root : Plan) (w : Place) : Prop
  | intro {around : List (Plan × Step)} {plan : Plan} {step : Step} {p q : Provider}
      (hwithin : root.Within around plan) (hstep : step ∈ plan.steps)
      (hmade : step.statement.made? = some q) (hamong : among q)
      (hprovider : w.request.provider? = some p) (hidentity : q.identity = p.identity)
      (henv : w.env = env.within around) (hwaits : w.isAsync = canWait true around)
      (hbelow : w.Within among)

theorem Plan.Makes.below {among : Provider → Prop} {env : Environment} {root : Plan} {w : Place}
    (h : root.Makes among env w) : w.Within among := by
  cases h with
  | intro _ _ _ _ _ _ _ _ hbelow => exact hbelow

/-- A step in the tree of the plan makes or asks for a singleton of the identity. -/
def Plan.Offers (root : Plan) (i : Provider.Identity) : Prop :=
  ∃ step ∈ root.tree, ∃ p, step.statement.value? = some p ∧ p.lifetime = .single ∧ p.identity = i

/-- What a place requests is at hand, or the place resembles one whose value is made, and then waiting
is possible if it takes that. -/
inductive Served (made : Place → Prop) (offered : Provider.Identity → Prop) (y : Place) : Prop
  | absent (hprovider : y.request.provider? = none)
  | parameter {p : Provider} (hprovider : y.request.provider? = some p) (hparameter : p.IsParameter)
  | single {p : Provider} (hprovider : y.request.provider? = some p) (hsingle : p.lifetime = .single)
      (hoffered : offered p.identity)
  | made {p : Provider} {w : Place} (hprovider : y.request.provider? = some p)
      (hwaits : p.isAsync = true → y.isAsync = true ∨ p.isDelegate = true) (hmade : made w)
      (hresembles : y.Resembles true w)

theorem Served.mono {made made' : Place → Prop} {offered offered' : Provider.Identity → Prop}
    {y : Place} (h : Served made offered y) (hmade : ∀ w, made w → made' w)
    (hoffered : ∀ i, offered i → offered' i) : Served made' offered' y := by
  cases h with
  | absent hprovider => exact .absent hprovider
  | parameter hprovider hparameter => exact .parameter hprovider hparameter
  | single hprovider hsingle hi => exact .single hprovider hsingle (hoffered _ hi)
  | made hprovider hwaits hw hresembles => exact .made hprovider hwaits (hmade _ hw) hresembles

theorem exists_of_mem_forall₂ {α β : Type} {R : α → β → Prop} {as : List α} {bs : List β} {a : α}
    (h : List.Forall₂ R as bs) (ha : a ∈ as) : ∃ b, R a b := by
  obtain ⟨k, hk, rfl⟩ := List.getElem_of_mem ha
  exact ⟨_, h.get hk (h.length_eq ▸ hk)⟩

namespace Assembly

variable {c : Settings} {σ τ : Setup} {root plan inner : Plan} {around : List (Plan × Step)}
  {target p q : Provider} {carrier step : Step} {steps : List Step} {w y : Place}
  {i : Provider.Identity} {supply : Supply}

/-- Nothing is around: neither steps nor delegates. -/
def Setup.IsOutermost (σ : Setup) : Prop :=
  σ.outside = [] ∧ σ.scope.around = []

theorem Setup.Origin.lifetime_of_single (h : σ.Origin c steps step) {name : String} {isAsync : Bool}
    (hstatement : step.statement = .single name p isAsync) : p.lifetime = .single := by
  cases h with
  | asks hasks hsingle =>
      cases hasks.symm.trans hstatement
      exact hsingle
  | opens h | creates h | starts h | awaits h | delegates h | defines h | calls h =>
      cases h.symm.trans hstatement

theorem Setup.Origin.isDelegate (h : σ.Origin c steps step) {name registry : String}
    (hstatement : step.statement = .delegate name p inner registry) : p.isDelegate = true := by
  cases h with
  | delegates hdelegates _ _ _ hdelegate =>
      cases hdelegates.symm.trans hstatement
      exact hdelegate
  | opens h | creates h | starts h | awaits h | asks h | defines h | calls h =>
      cases h.symm.trans hstatement

/-- A plan in the tree of a whole plan, as it was assembled. -/
structure Part (c : Settings) (σ : Setup) (root : Plan) (around : List (Plan × Step)) (plan : Plan)
    (target : Provider) (τ : Setup) : Prop where
  within : root.Within around plan
  assembled : Assembled c τ target plan
  surrounded : σ.Surrounded around τ

namespace Part

theorem origin (h : Part c σ root around plan target τ) (hstep : step ∈ plan.steps) :
    τ.Origin c plan.steps step :=
  h.assembled.origins.1 step hstep

/-- The body of a step is a part as well, assembled for what the provider of the step requests. -/
theorem body (h : Part c σ root around plan target τ) (hcarrier : carrier ∈ plan.steps)
    (hbody : carrier.statement.body? = some inner) (hp : carrier.statement.provider? = some p) :
    p.lifetime ≠ .single ∧
      (∃ isAsync, (Place.mk (σ.base.within around) isAsync (Environment.given p)).Within σ.among) ∧
      ∃ value υ, Part c σ root ((plan, carrier) :: around) inner value υ ∧
        ∀ r ∈ ((σ.base.within around).enter p).requests p, r.provider? = some value := by
  obtain ⟨hq, haround, hlifetime, hwithin, hvalue, hassembled⟩ := (h.origin hcarrier).bears hbody
  cases hp.symm.trans hq
  rw [h.surrounded.base] at hvalue hwithin
  rw [h.surrounded.among] at hwithin
  exact ⟨hlifetime, hwithin, _, _,
    ⟨.body h.within hcarrier hbody, hassembled, h.surrounded.inside hp haround⟩, hvalue⟩

/-- Where nothing can wait, what is made takes no waiting for, or it is a delegate. -/
theorem isAsync_made (h : Part c σ root around plan target τ) (himmediate : root.HasImmediateBodies)
    (hstep : step ∈ plan.steps) (hmade : step.statement.made? = some p) (hasync : p.isAsync = true) :
    canWait true around = true ∨ p.isDelegate = true := by
  cases hwithin : h.within with
  | root => exact .inl rfl
  | @body _ _ _ carrier outer hcarrier hbody =>
      cases hwaits : carrier.statement.isBodyAsync with
      | true => exact .inl hwaits
      | false =>
          have hstatement := himmediate _ _ _ _ outer hcarrier hbody hwaits step hstep
          rcases Statement.isImmediate_made hstatement hmade with hsync | ⟨_, _, _, hdelegate⟩
          · exact absurd (hsync.symm.trans hasync) Bool.false_ne_true
          · exact .inr ((h.origin hstep).isDelegate hdelegate)

end Part

/-- Every plan in the tree is a part. -/
theorem Assembled.part (h : Assembled c σ target root) (hwithin : root.Within around plan) :
    ∃ value τ, Part c σ root around plan value τ :=
  let ⟨τ, value, hassembled, hsurrounded⟩ := h.within hwithin
  ⟨value, τ, hwithin, hassembled, hsurrounded⟩

/-- Inside a body, however deep, everything is found that is found where the body starts, or a
parameter. -/
theorem Assembled.covers_around (h : Assembled c σ target root) (hwithin : root.Within around plan)
    {outer : Plan} (hmem : (outer, carrier) ∈ around) (hp : carrier.statement.provider? = some p) :
    ∃ further body, root.Within further outer ∧ carrier ∈ outer.steps ∧
      carrier.statement.body? = some body ∧
      (σ.base.within around).Covers ((σ.base.within further).enter p) := by
  induction hwithin with
  | root => cases hmem
  | @body around plan body carrier' hwithin hcarrier hbody ih =>
      obtain ⟨q, hq⟩ := Statement.provider_of_body hbody
      have henter : σ.base.within ((plan, carrier') :: around) = (σ.base.within around).enter q := by
        simp [Environment.within, hq]
      rcases List.mem_cons.mp hmem with heq | hmem
      · cases heq
        cases hp.symm.trans hq
        refine ⟨around, body, hwithin, hcarrier, hbody, ?_⟩
        rw [henter]
        exact .refl _
      · obtain ⟨further, inner, hfurther, hcarried, hinner, hcovers⟩ := ih hmem
        obtain ⟨value, τ, hpart⟩ := h.part hwithin
        refine ⟨further, inner, hfurther, hcarried, hinner, ?_⟩
        rw [henter]
        exact hcovers.deeper (hpart.body hcarrier hbody hq).1

/-! ### Served -/

section

variable (hcoherent : Coherent σ.among) (hroot : Assembled c σ target root) (hout : σ.IsOutermost)
  (himmediate : root.HasImmediateBodies)

include hcoherent hroot hout

/-- A delegate around is one that the plans around make. It is requested deeper than where it was made,
but there it has the same requests. -/
theorem Part.served_around {value : Provider} {ty : Ty} {name : String}
    (h : Part c σ root around plan value τ) (hp : y.request.provider? = some p)
    (hidentity : p.identity = .delegate ty) (hbelow : y.Within σ.among)
    (henv : y.env = σ.base.within around) (hmem : (.delegate ty, name) ∈ τ.scope.around) :
    Served (root.Makes σ.among σ.base) root.Offers y := by
  have hdelegate : p.isDelegate = true := by
    rw [← Provider.isDelegate_identity, hidentity]
    rfl
  rcases h.surrounded.delegates _ hmem with hmem | ⟨⟨outer, carrier⟩, hlevel, q, body, registry, hq, hi⟩
  · rw [hout.2] at hmem
    cases hmem
  · have hprovider : carrier.statement.provider? = some q := by rw [hq]; rfl
    -- The carrier of the body that is around was itself made in a plan further out, for a provider like
    -- the one requested: the place of that one covers this one.
    obtain ⟨further, body', hwithin, hcarrier, hbody, hcovers⟩ :=
      hroot.covers_around h.within hlevel hprovider
    obtain ⟨_, _, hpart⟩ := hroot.part hwithin
    obtain ⟨-, ⟨isAsync, hqbelow⟩, -⟩ := hpart.body hcarrier hbody hprovider
    have halike : p.Alike q :=
      hcoherent p q (hbelow.provider hp) (hqbelow.provider rfl) (hidentity.trans hi)
    have hsingle : p.lifetime ≠ .single := by
      rw [Provider.lifetime_of_isDelegate hdelegate]
      exact Lifetime.noConfusion
    have hisBody : p.identity.isBody = true := by rw [hidentity]; rfl
    refine .made hp (fun _ => .inr hdelegate)
      (w := ⟨σ.base.within further, canWait true further, Environment.given q⟩)
      (.intro hwithin hcarrier (by rw [hq]; rfl) (hqbelow.provider rfl) rfl rfl rfl rfl
        (hqbelow.of_isAsync _)) ⟨p, q, hp, rfl, halike.identity, fun _ => ?_, ?_⟩
    · rw [Provider.waits_eq, Provider.waits_eq, ← halike.identity, if_pos hisBody, if_pos hisBody,
        halike.isAsync]
    · rw [henv]
      exact hcovers.deeper hsingle

include himmediate

/-- What a supply stands for is served where the supply is used: it is absent, a parameter, a singleton
with an accessor, or made by a step in the tree. -/
theorem Part.served {value : Provider} (h : Part c σ root around plan value τ)
    (hp : y.request.provider? = some p) (hbelow : y.Within σ.among)
    (henv : p.lifetime ≠ .single → y.env = σ.base.within around)
    (hwaits : y.isAsync = canWait true around) (hi : p.identity = i)
    (hstands : τ.StandsFor plan.steps i supply) :
    Served (root.Makes σ.among σ.base) root.Offers y := by
  -- A parameter needs no more. A delegate around was made further out. A singleton needs an accessor,
  -- which is asked for here or around. Anything else is made in this plan, for this provider or one
  -- like it.
  cases hstands with
  | parameter =>
      obtain rfl := Provider.eq_parameter_of_identity hi
      exact .parameter hp ⟨_, _, _, rfl⟩
  | around hmem =>
      have hsingle : p.lifetime ≠ .single := by
        rw [← Provider.lifetime_identity, hi]
        exact Lifetime.noConfusion
      exact h.served_around hcoherent hroot hout hp hi hbelow (henv hsingle) hmem
  | @inherited q _ _ _ hsingle hdelivers =>
      obtain ⟨-, hmaker, hvalue, -, -, -⟩ := hdelivers
      rename_i maker _
      have hpsingle : p.lifetime = .single := (Provider.lifetime_eq hi).trans hsingle
      rcases h.surrounded.outside maker hmaker with hmem | ⟨level, hlevel, hmem⟩
      · rw [hout.1] at hmem
        cases hmem
      · exact .single hp hpsingle
          ⟨maker, h.within.mem_tree_of_mem hlevel hmem, q, hvalue, hsingle, hi.symm⟩
  | @made q _ _ hamong hdelivers =>
      obtain ⟨-, hmaker, hvalue, -, -, -⟩ := hdelivers
      rename_i maker _
      by_cases hsingle : q.lifetime = .single
      · exact .single hp ((Provider.lifetime_eq hi).trans hsingle)
          ⟨maker, h.within.mem_tree hmaker, q, hvalue, hsingle, hi.symm⟩
      -- What hands over no singleton but has a value made it.
      · have hmade : maker.statement.made? = some q := by
          refine (Statement.made_of_value hvalue).resolve_left ?_
          rintro ⟨name, isAsync, hasks⟩
          exact hsingle ((h.origin hmaker).lifetime_of_single hasks)
        rw [h.surrounded.among] at hamong
        have halike : p.Alike q := hcoherent p q (hbelow.provider hp) hamong hi
        refine .made hp (fun hasync => ?_) (w := ⟨y.env, y.isAsync, Environment.given p⟩)
          (.intro h.within hmaker hmade hamong rfl hi.symm (henv (halike.lifetime ▸ hsingle))
            hwaits (hbelow.given hp)) ⟨p, p, hp, rfl, rfl, fun _ => rfl, .refl _⟩
        rw [halike.isAsync] at hasync
        rw [hwaits, halike.isDelegate]
        exact h.isAsync_made himmediate hmaker hmade hasync

/-- The value of a body is served where its provider requests it, since the body was assembled for the
provider found there. -/
theorem Part.served_body {value : Provider} (h : Part c σ root around plan value τ)
    (hcarrier : carrier ∈ plan.steps) (hbody : carrier.statement.body? = some inner)
    (hq : carrier.statement.provider? = some q) (hidentity : p.identity = q.identity)
    (hisBody : p.identity.isBody = true) (hp : w.request.provider? = some p)
    (hbelow : w.Within σ.among) (henv : w.env = σ.base.within around) (hy : w.Next y) :
    Served (root.Makes σ.among σ.base) root.Offers y := by
  obtain ⟨-, ⟨isAsync, hqbelow⟩, value', υ, hpart, hvalue⟩ := h.body hcarrier hbody hq
  have halike : p.Alike q :=
    hcoherent p q (hbelow.provider hp) (hqbelow.provider rfl) hidentity
  have hybelow := hbelow.next hy
  obtain ⟨hprovider, hr⟩ := hy
  cases hp.symm.trans hprovider
  obtain ⟨r', hr', hsatisfied⟩ := halike.request_provider hr
  rw [halike.enter, henv] at hr'
  -- The provider that the place requests has the identity of the one the body was assembled for.
  rw [hvalue r' hr', Option.map_some] at hsatisfied
  obtain ⟨p', hp', hsame⟩ := Option.map_eq_some_iff.mp hsatisfied.symm
  obtain ⟨supply, hstands, -⟩ := hpart.assembled.origins.2.2
  -- It stands in the environment and waits as the body does, so that the body serves it.
  refine hpart.served hcoherent hroot hout himmediate hp' hybelow (fun _ => ?_) ?_ hsame hstands
  · change w.env.enter _ = _
    rw [halike.enter, henv]
    simp [Environment.within, hq]
  · change Provider.waits _ _ = _
    rw [Provider.waits_eq, if_pos hisBody, halike.isAsync]
    simp [canWait, Statement.isBodyAsync, hq]

/-- The dependencies of what the plan makes are served: each was supplied when the value was created, or
is the value of a body that was assembled. So from the root on everything that is needed is there. -/
theorem Assembled.served_next (hmade : root.Makes σ.among σ.base w) (hy : w.Next y) :
    Served (root.Makes σ.among σ.base) root.Offers y := by
  obtain ⟨hwithin, hstep, hmade, hqamong, hp, hidentity, henv, hwaits, hbelow⟩ := hmade
  rename_i around plan step p q
  obtain ⟨value, τ, hpart⟩ := hroot.part hwithin
  have halike : p.Alike q := hcoherent p q (hbelow.provider hp) hqamong hidentity.symm
  -- What was made is the creation of a value, a delegate or the call of an owned value's function. The
  -- first took its arguments from supplies; the others have a body, of which the value is requested.
  cases hpart.origin hstep with
  | creates hstatement hargs hneeds hsupplies hrelease hlast hfinishes hamong hcreated hnamed hhere =>
      rw [hstatement] at hmade
      cases hmade
      have hybelow := hbelow.next hy
      obtain ⟨hprovider, hr⟩ := hy
      cases hp.symm.trans hprovider
      -- The plan created another provider of this identity, perhaps, but that one requests alike.
      obtain ⟨r', hr', hsatisfied⟩ := halike.request_provider hr
      rw [halike.enter, henv, ← hpart.surrounded.base] at hr'
      obtain ⟨supply?, hsupply⟩ := exists_of_mem_forall₂ hsupplies hr'
      cases hsupply with
      | leftOut hnone _ =>
          rw [hnone, Option.map_none] at hsatisfied
          exact .absent (Option.map_eq_none_iff.mp hsatisfied.symm)
      | @supplied q' _ hq' _ hstands =>
          rw [hq', Option.map_some] at hsatisfied
          obtain ⟨p', hp', hsame⟩ := Option.map_eq_some_iff.mp hsatisfied.symm
          refine hpart.served hcoherent hroot hout himmediate hp' hybelow (fun hlifetime => ?_) ?_ hsame
            hstands
          · have hbase := hhere r' hr' fun q₁ hq₁ => by
              cases hq'.symm.trans hq₁
              exact Provider.lifetime_eq hsame ▸ hlifetime
            rw [hpart.surrounded.base] at hbase
            change w.env.enter p = _
            rw [halike.enter, henv, hbase]
          · change p.waits w.isAsync = _
            rw [halike.waits, waits_of_isCreated hcreated, hwaits]
  | delegates hstatement hbears hrelease hopened hdelegate hregistry =>
      rw [hstatement] at hmade
      cases hmade
      have hisBody : p.identity.isBody = true := by
        rw [halike.identity]
        obtain ⟨ty, result, params, isAsync, rfl⟩ := Provider.eq_delegate hdelegate
        rfl
      exact hpart.served_body hcoherent hroot hout himmediate hstep (by rw [hstatement]; rfl)
        (by rw [hstatement]; rfl) halike.identity hisBody hp hbelow henv hy
  | calls hstatement hdefining hfunction hrelease hnamed howned hmakes =>
      rw [hstatement] at hmade
      cases hmade
      obtain ⟨q', own, inner, hsame, hdefines⟩ := hmakes
      exact hpart.served_body hcoherent hroot hout himmediate hdefining (by rw [hdefines]; rfl)
        (by rw [hdefines]; rfl) (halike.identity.trans hsame.symm) (halike.identity ▸ howned) hp hbelow
        henv hy
  | asks hstatement | opens hstatement | starts hstatement | awaits hstatement | defines hstatement =>
      rw [hstatement] at hmade
      cases hmade

/-- The value of the plan is served where it is requested. -/
theorem Assembled.served_target (hp : y.request.provider? = some target) (hbelow : y.Within σ.among)
    (henv : y.env = σ.base) (hwaits : y.isAsync = true) :
    Served (root.Makes σ.among σ.base) root.Offers y := by
  have hpart : Part c σ root [] root target σ :=
    ⟨.root, hroot, rfl, rfl, fun _ hstep => .inl hstep, fun _ hentry => .inl hentry⟩
  obtain ⟨supply, hstands, -⟩ := hroot.origins.2.2
  exact hpart.served hcoherent hroot hout himmediate hp hbelow (fun _ => henv) hwaits rfl hstands

end

/-! ### Accessors -/

/-- The setup of a plan for the accessor of a singleton: at the container, with nothing around. -/
def Setup.ofAccessor (among : Provider → Prop) (env : Environment) (asyncRelease isAsync : Bool)
    (target : Provider) : Setup where
  among := among
  base := env
  scope := { asyncRelease, isAsync, around := [], accessorOf? := some target }
  outside := []

theorem CreatesValue.creates {scope : Scope} {env : Environment} {name : String}
    {args : List (Option String)} {needs : List Step} {s s' : State}
    (h : CreatesValue scope env p name args needs s step s') :
    ∃ creating ∈ s'.steps, creating.statement.made? = some p := by
  cases h with
  | plain _ _ hcreating => exact ⟨step, by simp, by rw [hcreating]; rfl⟩
  | @awaited _ creating _ _ _ ht hcreating => exact ⟨creating, by simp, by rw [hcreating]; rfl⟩
  | @initialized creating _ _ _ hcreating => exact ⟨creating, by simp, by rw [hcreating]; rfl⟩
  | @initializedAwaited _ creating _ _ _ _ hcreating ht =>
      exact ⟨creating, by simp [ht], by rw [hcreating]; rfl⟩

/-- The plan of an accessor makes its singleton: there it is neither at hand nor asked for at an
accessor. -/
theorem Assembles.makes_target {scope : Scope} {env : Environment} {s s' : State}
    (h : Assembles c scope env target [] s plan s') (hscope : scope.accessorOf? = some target)
    (haround : scope.around = []) (hsingle : target.lifetime = .single) :
    ∃ step ∈ plan.steps, step.statement.made? = some target := by
  obtain ⟨hobtains, harranges⟩ := h
  cases hobtains with
  | atHand hhand =>
      rw [atHand, haround] at hhand
      simp [State.forBody] at hhand
  | accessor _ huses =>
      unfold usesAccessor at huses
      simp only [hscope, Option.any_some, Bool.true_or, Bool.not_true, Bool.and_false] at huses
      split at huses <;> cases huses
  | parameter => cases hsingle
  | delegate hp | ownedAgain hp | owned hp =>
      rw [hp] at hsingle
      cases hsingle
  | value _ _ _ _ _ hcreates =>
      obtain ⟨step, hstep, hmade⟩ := hcreates.creates
      refine ⟨step, harranges.perm.symm.subset ?_, hmade⟩
      rwa [State.afterValue_steps]

/-- The plan of an accessor was assembled at the container, and it makes its singleton. -/
theorem planAccessor_assembled {config : Config} {trigger : Trigger} {env : Environment}
    {asyncRelease isAsync : Bool} {among : Provider → Prop} (hcontainer : env.isContainer = true)
    (h : planAccessor config trigger env asyncRelease isAsync target = .ok plan)
    (hsingle : target.lifetime = .single)
    (hbelow : ∃ waits, (Place.mk env waits (Environment.given target)).Within among) :
    Assembled (.ofConfig config trigger env) (.ofAccessor among env asyncRelease isAsync target)
        target plan ∧
      ∃ step ∈ plan.steps, step.statement.made? = some target := by
  unfold planAccessor at h
  obtain ⟨s, hassembles⟩ := run_sound h
  exact ⟨.intro hassembles (.inr ⟨hcontainer, rfl⟩) ⟨rfl, fun _ => rfl, hbelow⟩
    fun _ hmem => absurd hmem List.not_mem_nil, hassembles.makes_target rfl rfl hsingle⟩

end Assembly

end Wiring
