import Mathlib
import Wiring.Proofs.Assembly.Origin
import Wiring.Proofs.Plan.Typing
import Wiring.Proofs.Typing

/-!
# Assembled plans are well typed

Arguments stand in the order of the dependencies, and each stands for the provider that satisfies the
dependency, or for another of its identity. Where identity tells the type, the variable has the type
of the place that it fills; and it holds a value, not a task.

* `requests_slots` — dependencies and places match.
* `Embedded.holds` — the variable of a supply has the type of its provider.
* `planResolution_wellTyped` — every creation in the tree has arguments that fit.
-/

namespace Wiring

theorem Environment.IsTyped.within {env : Environment} (h : env.IsTyped)
    (around : List (Plan × Step)) : (env.within around).IsTyped := by
  induction around with
  | nil => exact h
  | cons level rest ih =>
      show ((level.2.statement.provider?.map (env.within rest).enter).getD (env.within rest)).IsTyped
      cases level.2.statement.provider? with
      | none => exact ih
      | some p => exact ih.enter p

/-- Two lists related through a third one. -/
theorem forall₂_map_of_forall₂ {α β γ δ : Type} {R : α → β → Prop} {S : β → γ → Prop} {T : α → δ → Prop}
    {f : γ → δ} {as : List α} {bs : List β} {cs : List γ} (hab : List.Forall₂ R as bs)
    (hbc : List.Forall₂ S bs cs) (hac : ∀ a, ∀ b ∈ bs, ∀ c, R a b → S b c → T a (f c)) :
    List.Forall₂ T as (cs.map f) := by
  induction hab generalizing cs with
  | nil =>
      cases hbc
      exact .nil
  | cons ha _ ih =>
      cases hbc with
      | cons hb htail =>
          exact .cons (hac _ _ List.mem_cons_self _ ha hb)
            (ih htail fun a b hmem => hac a b (List.mem_cons_of_mem _ hmem))

/-! ### Dependencies and places -/

/-- A dependency asks for what its place takes. -/
structure Slot.Asks (env : Environment) (slot : Slot) (r : Request) : Prop where
  supplied : ∀ q, r.provider? = some q → q.ty = slot.ty
  leftOut : r.provider? = none → env.lookup slot.ty = none ∧ slot.optional = r.optional

theorem Slot.Asks.given (env : Environment) (p : Provider) :
    (Slot.ofProvider p).Asks env (Environment.given p) :=
  ⟨fun q hq => by cases hq; rfl, nofun⟩

theorem Slot.Asks.param {env : Environment} (henv : env.IsTyped) (param : Parameter) :
    (Slot.ofParam param).Asks env (env.paramRequest param) :=
  ⟨fun _ hq => Environment.lookup_ty henv hq, fun hnone => ⟨hnone, rfl⟩⟩

/-- The dependencies of a created value match its places, one by one. -/
theorem requests_slots {env : Environment} (henv : env.IsTyped) {p : Provider}
    (hp : p.isCreated = true) : List.Forall₂ (Slot.Asks env) p.slots (env.requests p) := by
  have hparams : ∀ params : List Parameter,
      List.Forall₂ (Slot.Asks env) (params.map Slot.ofParam) (params.map env.paramRequest) := by
    intro params
    rw [List.forall₂_map_left_iff, List.forall₂_map_right_iff, List.forall₂_same]
    exact fun param _ => .param henv param
  -- By the kinds of provider that are created. A decorator takes what it wraps in one place and
  -- resolves the others; a factory, a forwarded provider and an array have what they ask for already.
  cases p with
  | construct site rule => exact hparams _
  | call site rule => exact hparams _
  | decorated site decorator inner =>
      show List.Forall₂ _ (List.map _ _) (List.map _ _)
      rw [List.forall₂_map_left_iff, List.forall₂_map_right_iff, List.forall₂_same]
      intro param _
      unfold Environment.decoratorRequest
      split
      · exact ⟨fun q hq => by cases hq; rfl, nofun⟩
      · exact .param henv param
  | factory site product maker lifetime isAsync => exact .cons (.given env maker) .nil
  | forwarded ty inner => exact .cons (.given env inner) .nil
  | array ty element items =>
      show List.Forall₂ _ (List.map _ _) (List.map _ _)
      rw [List.forall₂_map_left_iff, List.forall₂_map_right_iff, List.forall₂_same]
      exact fun item _ => .given env item
  | held member => exact .nil
  | _ => cases hp

namespace Assembly

variable {c : Settings} {env : Environment} {root plan : Plan} {around : List (Plan × Step)}
  {τ : Setup} {p q : Provider} {supply : Supply}

theorem ty_of_identity_delegate {ty : Ty} (h : p.identity = .delegate ty) : p.ty = ty := by
  cases p with
  | delegate =>
      cases h
      rfl
  | _ => cases h

/-- A supply is a parameter itself, or a variable that some step, here or around, declares with the type
of the provider. It holds no task then. -/
theorem Embedded.holds (h : Embedded c Provider.IsRegular env root around plan τ) (hq : q.IsRegular)
    (hstands : τ.StandsFor plan.steps q.identity supply) :
    (∃ param depth, q = .parameter param supply.name depth) ∨
      ∃ step, (step ∈ plan.steps ∨ ∃ level ∈ around, step ∈ level.1.steps) ∧
      step.statement.declaration? = some ⟨supply.name, q.ty⟩ ∧ step.statement.givesTask = false := by
  have hdelivered : ∀ {steps : List Step} {p : Provider} {name : String} {step : Step},
      τ.among p → p.identity = q.identity → Delivers steps p name step →
        ∃ last ∈ steps, last.statement.declaration? = some ⟨name, q.ty⟩ ∧
          last.statement.givesTask = false := by
    rintro steps p name step hamong hidentity ⟨-, -, hvalue, hlast, hfinishes, -⟩
    rw [h.among] at hamong
    rw [← hamong.ty_eq hq hidentity]
    exact ⟨_, hlast, hfinishes.declared, hfinishes.not_givesTask (by rw [hvalue]; rfl)⟩
  -- A supply was recorded for an identity and is asked for by a provider of that identity: regular
  -- providers of one identity have one type.
  generalize hidentity : q.identity = i at hstands
  cases hstands with
  | parameter => exact .inl ⟨_, _, Provider.eq_parameter_of_identity hidentity⟩
  | @around ty name hmem =>
      obtain ⟨⟨plan', carrier⟩, hlevel, p, body, registry, hstatement, hentry⟩ := h.delegates _ hmem
      obtain ⟨-, -, hcarrier, -⟩ := h.within.of_mem hlevel
      have hty : p.ty = q.ty := (ty_of_identity_delegate hentry.symm).trans
        (ty_of_identity_delegate hidentity).symm
      refine .inr ⟨carrier, .inr ⟨_, hlevel, hcarrier⟩, ?_, ?_⟩
      · rw [hstatement, ← hty]
        rfl
      · rw [hstatement]
        rfl
  | made hamong hdelivers =>
      obtain ⟨last, hlast, hrest⟩ := hdelivered hamong hidentity.symm hdelivers
      exact .inr ⟨last, .inl hlast, hrest⟩
  | inherited hamong _ hdelivers =>
      obtain ⟨last, hlast, hrest⟩ := hdelivered hamong hidentity.symm hdelivers
      exact .inr ⟨last, .inr (h.outside last hlast), hrest⟩

/-- What is supplied for a dependency fits the place: it is a parameter or a variable declared with the
type of the place, or is left out of a place that allows it. -/
theorem Embedded.fills (h : Embedded c Provider.IsRegular env root around plan τ)
    (hgenerated : ∀ name ∈ assignedIn root.tree, ∃ n, Generated n name) {inside : Environment}
    (hinside : inside.IsTyped) (hp : p.IsRegular) {slot : Slot} {r : Request}
    (hr : r ∈ inside.requests p) (hasks : slot.Asks inside r) {supply? : Option Supply}
    (hsupplies : τ.Supplies plan.steps r supply?) :
    root.Fills inside around plan slot (supply?.map Supply.name) := by
  cases hsupplies with
  | leftOut hprovider hoptional =>
      obtain ⟨hlookup, heq⟩ := hasks.leftOut hprovider
      exact .leftOut (heq.trans hoptional) hlookup
  | @supplied q supply hprovider hamong hstands =>
      rw [h.among] at hamong
      have hty : q.ty = slot.ty := hasks.supplied q hprovider
      rcases h.holds hamong hstands with ⟨param, depth, rfl⟩ | ⟨step, hstep, hdeclaration, htask⟩
      · have hlookup : inside.lookup r.ty = some (.parameter param supply.name depth) :=
          (Environment.requests_provider hr hprovider).resolve_right fun hpart =>
            hp.part_ne_parameter hpart _ _ _ rfl
        have hslot : r.ty = slot.ty := (Environment.lookup_ty hinside hlookup).symm.trans hty
        refine .filled (.parameter (hslot ▸ hlookup) hty) fun step hstep hname => ?_
        -- No step assigns a name like that of a parameter.
        obtain ⟨n, hn⟩ := hgenerated _ (mem_assignedIn hstep hname)
        obtain ⟨depth', index, heq⟩ := hamong.parameter
        exact absurd (heq ▸ hn) not_generated_parameterName
      · rw [hty] at hdeclaration
        have hassigned := Statement.assigned?_of_declaration hdeclaration
        have htree : step ∈ root.tree := by
          rcases hstep with hstep | ⟨level, hlevel, hstep⟩
          · exact h.within.mem_tree hstep
          · exact h.within.mem_tree_of_mem hlevel hstep
        refine .filled ?_ fun other hother hname => ?_
        · rcases hstep with hstep | ⟨level, hlevel, hstep⟩
          · exact .here (List.mem_filterMap.mpr ⟨step, hstep, hdeclaration⟩)
          · exact .around hlevel (List.mem_filterMap.mpr ⟨step, hstep, hdeclaration⟩)
        · obtain rfl := Wiring.eq_of_assigned h.distinct.names hother htree hname hassigned
          exact ⟨hdeclaration, htask⟩

end Assembly

/-- In a container declared without providers given in full, every creation in the tree of a plan has
one argument for each place, in order, and each argument fits its place. -/
theorem planResolution_wellTyped (config : Config) (trigger : Trigger) (ds : Declarations)
    (hds : ds.Composed) (ty : Ty) (waits : Bool) (x : Place)
    (hx : (Place.atRoot ds.build ty waits).Leads x) (target : Provider)
    (htarget : x.request.provider? = some target) (isAsync : Bool) (plan : Plan)
    (h : planResolution config trigger x.env isAsync target = .ok plan)
    (around : List (Plan × Step)) (nested : Plan) (hwithin : plan.Within around nested) (step : Step)
    (hstep : step ∈ nested.steps) (name : String) (p : Provider) (args : List (Option String))
    (hcreate : step.statement = .create name p args) :
    List.Forall₂ (plan.Fills ((x.env.within around).enter p) around nested) p.slots args := by
  have hregular := hds.isRegular
  have htyped := Place.isTyped_of_leads hx
  have hbelow : (Place.mk x.env x.isAsync (Environment.given target)).Within Provider.IsRegular :=
    ((Place.within_regular hregular ty waits).leads hx).given htarget
  obtain ⟨τ, hembedded⟩ := Assembly.planResolution_embedded h hbelow hwithin
  -- Only a creation has arguments, and its origin says what they stand for.
  have horigin := hembedded.origin hstep
  cases horigin with
  | creates hstatement hargs _ hsupplies _ _ _ hamong hcreated =>
      cases hcreate.symm.trans hstatement
      rw [hembedded.among] at hamong
      rw [hembedded.base] at hsupplies
      have hinside := (htyped.within around).enter p
      rw [hargs]
      exact forall₂_map_of_forall₂ (requests_slots hinside hcreated) hsupplies
        fun slot r hr supply? hasks hsupply =>
          hembedded.fills (Assembly.run_named h).2 hinside hamong hr hasks hsupply
  | _ => simp_all

/-- In the body of a delegate a value is created from the delegate's parameter, from a singleton that was
waited for around it, and with an optional argument left out. -/
theorem planResolution_wellTyped_body :
    let a : Ty := .plain "A"
    let b : Ty := .plain "B"
    let m : Ty := .plain "M"
    let n : Ty := .plain "N"
    let r : Ty := .plain "R"
    let needs (tys : List Ty) : List Parameter := tys.map fun ty => ⟨"", 0, ty, false⟩
    let ds := (({} : Declarations).addFunction (.function m "make" [] a) .single { isAsync := true })
      |>.addConstructor (.new b (needs [n, a] ++ [⟨"m", 0, m, true⟩])) .resolution {}
      |>.addConstructor (.new r (needs [a, .delegate [n] b true])) .resolution {}
    let x := Place.atRoot ds.build r true
    ∃ target plan carrier body step p, ds.Composed ∧ x.request.provider? = some target ∧
      planResolution {} .never x.env true target = .ok plan ∧
      plan.Within [(plan, carrier)] body ∧ step ∈ body.steps ∧
        step.statement = .create "b_1_4" p [some "param1_0", some "a_0_2", none] ∧
        p.slots = [⟨n, false⟩, ⟨a, false⟩, ⟨m, true⟩] ∧
        List.Forall₂ (plan.Fills ((x.env.within [(plan, carrier)]).enter p) [(plan, carrier)] body)
          p.slots [some "param1_0", some "a_0_2", none] := by
  intro a b m n r needs ds x
  have hds : ds.Composed := .constructor (.constructor (.function .empty _ _ _) _ _ _) _ _ _
  have hsummary : (x.request.provider?.bind fun target =>
      (planResolution {} .never x.env true target).toOption).map (fun plan => plan.steps.map fun s =>
        s.statement.body?.map fun body => body.steps.map fun t =>
          t.statement.creation?.map fun creation => (creation.1, creation.2.1.slots, creation.2.2)) =
      some [none, some [some ("b_1_4", [⟨n, false⟩, ⟨a, false⟩, ⟨m, true⟩],
        [some "param1_0", some "a_0_2", none])], none, none] := by cbv
  obtain ⟨plan, hplan, hsteps⟩ := Option.map_eq_some_iff.mp hsummary
  obtain ⟨target, htarget, hok⟩ := Option.bind_eq_some_iff.mp hplan
  have hok := Run.ok_of_toOption hok
  obtain ⟨_, rest, hplan₁, -, hrest⟩ := List.map_eq_cons_iff.mp hsteps
  obtain ⟨carrier, _, rfl, hcarrier, -⟩ := List.map_eq_cons_iff.mp hrest
  obtain ⟨body, hbody, hbodySteps⟩ := Option.map_eq_some_iff.mp hcarrier
  obtain ⟨step, _, hbody₁, hstep, -⟩ := List.map_eq_cons_iff.mp hbodySteps
  have hwithin : plan.Within [(plan, carrier)] body := .body .root (by simp [hplan₁]) hbody
  have hmem : step ∈ body.steps := by simp [hbody₁]
  obtain ⟨⟨name, p, args⟩, hcreation, hsummary⟩ := Option.map_eq_some_iff.mp hstep
  simp only [Prod.mk.injEq] at hsummary
  obtain ⟨rfl, hslots, rfl⟩ := hsummary
  have hcreate := Statement.eq_create hcreation
  exact ⟨target, plan, carrier, body, step, p, hds, htarget, hok, hwithin, hmem, hcreate, hslots,
    planResolution_wellTyped _ _ _ hds _ _ x .refl _ htarget _ _ hok _ _ hwithin _ hmem _ _ _ hcreate⟩

end Wiring
