import Mathlib
import Wiring.Check
import Wiring.Proofs.Arrays
import Wiring.Proofs.Assembly.Origin

/-!
# Arguments left out

A creation leaves an argument out where its parameter is optional and the environment of the plan has no
provider for the type. Nothing tells the plan why there is none: the type may have no provider at all,
or several between which nobody chose.

* `Resolution.IsOpen` — no provider was found, for want of one or for having several.
* `Provider.params` — the parameters that the arguments of a creation stand for.
* `planResolution_omits` — where an argument is absent in the tree of a plan.
* `planResolution_omits_several` — a parameter that two providers would satisfy is left out as well,
  and the check has nothing to say.
-/

namespace Wiring

/-! ### Types without a provider -/

/-- No provider was found: there is none, or there are several. -/
def Resolution.IsOpen (resolution : Resolution) : Prop :=
  resolution = .missing ∨ ∃ candidates, 2 ≤ candidates ∧ resolution = .ambiguous candidates

namespace Resolution

variable {resolution : Resolution} {f : Provider → Provider}

theorem isOpen_ofList {candidates : List Provider} (h : (ofList candidates).provider? = none) :
    (ofList candidates).IsOpen := by
  match candidates, h with
  | [], _ => exact .inl rfl
  | p :: q :: rest, _ => exact .inr ⟨_, by simp, rfl⟩

theorem provider?_map (resolution : Resolution) (f : Provider → Provider) :
    (resolution.map f).provider? = resolution.provider?.map f := by
  cases resolution <;> rfl

theorem IsOpen.map (h : resolution.IsOpen) (f : Provider → Provider) :
    (resolution.map f).IsOpen := by
  rcases h with rfl | ⟨candidates, hseveral, rfl⟩
  · exact .inl rfl
  · exact .inr ⟨candidates, hseveral, rfl⟩

end Resolution

theorem Catalog.isOpen_resolve {catalog : Catalog} {ty : Ty}
    (h : (catalog.resolve ty).provider? = none) : (catalog.resolve ty).IsOpen := by
  have hmap : ∀ resolution : Resolution, (resolution.provider? = none → resolution.IsOpen) →
      (resolution.map catalog.decorate).provider? = none →
        (resolution.map catalog.decorate).IsOpen := fun resolution hopen hnone => by
    rw [Resolution.provider?_map, Option.map_eq_none_iff] at hnone
    exact (hopen hnone).map _
  unfold resolve at h ⊢
  split at h
  · refine hmap _ (fun hnone => ?_) h
    unfold synthesize at hnone ⊢
    split at hnone
    · cases hnone
    · cases hnone
    · cases hnone
    · exact Resolution.isOpen_ofList hnone
  · exact hmap _ Resolution.isOpen_ofList h

/-- A type without a provider in an environment has none at all, or several. -/
theorem Environment.isOpen_resolve {env : Environment} {ty : Ty} (h : env.lookup ty = none) :
    (env.resolve ty).IsOpen := by
  unfold lookup at h
  unfold resolve at h ⊢
  split at h
  · cases h
  · exact Catalog.isOpen_resolve h

/-! ### The parameters of a creation -/

/-- The parameters of the constructor or function that creates a provider's value. -/
def Provider.params : Provider → List Parameter
  | .construct _ rule => rule.constructor.params
  | .call _ rule => rule.method.params
  | .decorated _ decorator _ => decorator.method.params
  | .factory .. | .delegate .. | .parameter .. | .held _ | .array .. | .forwarded .. | .owned .. => []

/-- A dependency without a provider is that of a parameter in the same place. -/
theorem Environment.paramRequest_of_absent {env : Environment} {p : Provider}
    (hp : p.isCreated = true) {i : Nat} {r : Request} (hr : (env.requests p)[i]? = some r)
    (hnone : r.provider? = none) :
    ∃ param, p.params[i]? = some param ∧ r = env.paramRequest param := by
  have hgiven : ∀ q, r ≠ given q := by
    rintro q rfl
    cases hnone
  -- By the kinds of provider: those with parameters request them in order, and what a decorator wraps
  -- is always there; the others request providers that they have.
  cases p with
  | construct site rule =>
      rw [requests, List.getElem?_map] at hr
      obtain ⟨param, hparam, rfl⟩ := Option.map_eq_some_iff.mp hr
      exact ⟨param, hparam, rfl⟩
  | call site rule =>
      rw [requests, List.getElem?_map] at hr
      obtain ⟨param, hparam, rfl⟩ := Option.map_eq_some_iff.mp hr
      exact ⟨param, hparam, rfl⟩
  | decorated site decorator inner =>
      rw [requests, List.getElem?_map] at hr
      obtain ⟨param, hparam, rfl⟩ := Option.map_eq_some_iff.mp hr
      unfold decoratorRequest at hnone ⊢
      split at hnone
      · cases hnone
      · rename_i hslot
        exact ⟨param, hparam, if_neg hslot⟩
  | factory site product maker lifetime isAsync =>
      obtain rfl := List.mem_singleton.mp (List.mem_of_getElem? hr)
      exact absurd rfl (hgiven maker)
  | forwarded ty inner =>
      obtain rfl := List.mem_singleton.mp (List.mem_of_getElem? hr)
      exact absurd rfl (hgiven inner)
  | array ty element items =>
      obtain ⟨item, -, rfl⟩ := List.mem_map.mp (List.mem_of_getElem? hr)
      exact absurd rfl (hgiven item)
  | held member => cases hr
  | _ => cases hp

/-! ### Plans -/

/-- What stands at a position of the second of two related lists is related to what stands there in the
first. -/
theorem exists_of_forall₂_getElem? {α β : Type} {R : α → β → Prop} {as : List α} {bs : List β} {i : Nat}
    {b : β} (h : List.Forall₂ R as bs) (hb : bs[i]? = some b) : ∃ a, as[i]? = some a ∧ R a b := by
  obtain ⟨hi, rfl⟩ := List.getElem?_eq_some_iff.mp hb
  have hi' : i < as.length := h.length_eq ▸ hi
  exact ⟨as[i], List.getElem?_eq_getElem hi', h.get hi' hi⟩

/-- In the tree of a plan an absent argument belongs to an optional parameter in the same place, and the
environment of the plan it is in has no provider for the type: none at all, or several. -/
theorem planResolution_omits (config : Config) (trigger : Trigger) (env : Environment)
    (isAsync : Bool) (target : Provider) (plan : Plan)
    (h : planResolution config trigger env isAsync target = .ok plan)
    (around : List (Plan × Step)) (nested : Plan) (hwithin : plan.Within around nested) (step : Step)
    (hstep : step ∈ nested.steps) (name : String) (p : Provider) (args : List (Option String))
    (hcreate : step.statement = .create name p args) (i : Nat) (habsent : args[i]? = some none) :
    ∃ param, p.params[i]? = some param ∧ param.optional = true ∧
      ((env.within around).resolve param.ty).IsOpen := by
  obtain ⟨τ, hembedded⟩ := Assembly.planResolution_embedded_anyhow h hwithin
  -- An absent argument is a supply left out, and its request has no provider. What a created value
  -- requests without one is requested for a parameter, in the environment of the plan.
  cases hembedded.origin hstep with
  | creates hstatement hargs _ hsupplies _ _ _ _ hcreated _ hhere =>
      cases hcreate.symm.trans hstatement
      rw [hembedded.base] at hsupplies hhere
      rw [hargs, Assembly.namesOf, List.getElem?_map] at habsent
      obtain ⟨supply?, hsupply, hnone⟩ := Option.map_eq_some_iff.mp habsent
      obtain rfl := Option.map_eq_none_iff.mp hnone
      obtain ⟨r, hr, hleft⟩ := exists_of_forall₂_getElem? hsupplies hsupply
      cases hleft with
      | leftOut hprovider hoptional =>
          have hbase := hhere r (List.mem_of_getElem? hr) fun q hq => by cases hprovider.symm.trans hq
          rw [hbase] at hr
          obtain ⟨param, hparam, rfl⟩ := Environment.paramRequest_of_absent hcreated hr hprovider
          exact ⟨param, hparam, hoptional, Environment.isOpen_resolve hprovider⟩
  | _ => simp_all

/-- In the body of a delegate an optional parameter is left out: nothing provides its type. -/
theorem planResolution_omits_missing :
    let a : Ty := .plain "A"
    let m : Ty := .plain "M"
    let n : Ty := .plain "N"
    let r : Ty := .plain "R"
    let env := (({} : Declarations).addConstructor (.new a [⟨"n", 0, n, false⟩, ⟨"m", 0, m, true⟩])
        .resolution {}
      |>.addConstructor (.new r [⟨"make", 0, .delegate [n] a false, false⟩]) .resolution {}).build
    ∃ target plan carrier body step p, env.lookup r = some target ∧
      planResolution {} .never env false target = .ok plan ∧ plan.Within [(plan, carrier)] body ∧
      step ∈ body.steps ∧ step.statement = .create "a_1_2" p [some "param1_0", none] ∧
      [some "param1_0", none][1]? = some none ∧
      ∃ param, p.params[1]? = some param ∧ param.optional = true ∧
        ((env.within [(plan, carrier)]).resolve param.ty).IsOpen := by
  intro a m n r env
  have hsummary : ((env.lookup r).bind fun target =>
      (planResolution {} .never env false target).toOption).map (fun plan => plan.steps.map fun s =>
        s.statement.body?.map fun body => body.steps.map fun t =>
          t.statement.creation?.map fun creation => (creation.1, creation.2.2)) =
      some [some [some ("a_1_2", [some "param1_0", none])], none] := by cbv
  obtain ⟨plan, hplan, hsteps⟩ := Option.map_eq_some_iff.mp hsummary
  obtain ⟨target, htarget, hok⟩ := Option.bind_eq_some_iff.mp hplan
  have hok := Run.ok_of_toOption hok
  obtain ⟨carrier, _, hplan₁, hcarrier, -⟩ := List.map_eq_cons_iff.mp hsteps
  obtain ⟨body, hbody, hbodySteps⟩ := Option.map_eq_some_iff.mp hcarrier
  obtain ⟨step, _, hbody₁, hstep, -⟩ := List.map_eq_cons_iff.mp hbodySteps
  have hwithin : plan.Within [(plan, carrier)] body := .body .root (by simp [hplan₁]) hbody
  have hmem : step ∈ body.steps := by simp [hbody₁]
  obtain ⟨⟨name, p, args⟩, hcreation, hsummary⟩ := Option.map_eq_some_iff.mp hstep
  obtain ⟨rfl, rfl⟩ := Prod.mk.inj hsummary
  have hcreate := Statement.eq_create hcreation
  exact ⟨target, plan, carrier, body, step, p, htarget, hok, hwithin, hmem, hcreate, rfl,
    planResolution_omits _ _ env _ target plan hok _ body hwithin step hmem _ p _ hcreate 1 rfl⟩

/-- A root passes its check, and its plan leaves out an optional parameter that either of two functions
would satisfy. -/
theorem planResolution_omits_several :
    let a : Ty := .plain "A"
    let b : Ty := .plain "B"
    let m : Ty := .plain "M"
    let env := ((({} : Declarations).addFunction (.function m "first" [] b) .resolution {}).addFunction
        (.function m "second" [] b) .resolution {}
      |>.addConstructor (.new a [⟨"p0", 0, b, true⟩]) .resolution {}).build
    let checked := Check.run ⟨a, standardDepth, .never, none⟩ env false
    checked.diagnostics = [] ∧ checked.error? = none ∧
      ∃ target plan step p, env.lookup a = some target ∧
        planResolution {} .never env false target = .ok plan ∧ step ∈ plan.steps ∧
        step.statement = .create "a_0_0" p [none] ∧ p.params = [⟨"p0", 0, b, true⟩] ∧
        (env.within []).resolve b = .ambiguous 2 := by
  intro a b m env checked
  have hchecked : (checked.diagnostics, checked.error?) = ([], none) := by cbv
  have hsummary : ((env.lookup a).bind fun target =>
      (planResolution {} .never env false target).toOption).map (fun plan => plan.steps.map fun s =>
        s.statement.creation?.map fun creation => (creation.1, creation.2.1.params, creation.2.2)) =
      some [some ("a_0_0", [⟨"p0", 0, b, true⟩], [none])] := by cbv
  obtain ⟨plan, hplan, hsteps⟩ := Option.map_eq_some_iff.mp hsummary
  obtain ⟨target, htarget, hok⟩ := Option.bind_eq_some_iff.mp hplan
  obtain ⟨step, _, hplan₁, hstep, -⟩ := List.map_eq_cons_iff.mp hsteps
  obtain ⟨⟨name, p, args⟩, hcreation, hsummary⟩ := Option.map_eq_some_iff.mp hstep
  simp only [Prod.mk.injEq] at hsummary
  obtain ⟨rfl, hparams, rfl⟩ := hsummary
  obtain ⟨hclean, herror⟩ := Prod.mk.inj hchecked
  exact ⟨hclean, herror, target, plan, step, p, htarget, Run.ok_of_toOption hok, by simp [hplan₁],
    Statement.eq_create hcreation, hparams, by cbv⟩

end Wiring
