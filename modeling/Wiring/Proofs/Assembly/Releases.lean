import Mathlib
import Wiring.Proofs.Assembly.Naming
import Wiring.Proofs.Assembly.Origin
import Wiring.Proofs.Plan.Releases

/-!
# Releases of assembled plans

The release of a value is attached to the step that begins its creation, which may only hand out a
task. The needs of steps lead from every value back to that step, so the reverse order of the steps
releases a value before whatever went into it, however the plan was rearranged.

* `Setup.Origin.released` — the value that a release is about is assigned by the step or by the one
  that waits for it.
* `Setup.passes_reaches` — where a value is passed, the needs of steps lead the other way.
* `planResolution_releaseOrder` — no value is released before one that it went into.
* `planResolution_releasesAll` — what a plan creates is released, once.
-/

namespace Wiring

namespace Assembly

variable {c : Settings} {σ τ : Setup} {env : Environment} {p : Provider} {steps : List Step}
  {step : Step} {scope : Scope} {args : List (Option String)} {name value : String}

/-! ### What a release is about -/

theorem releaseOf_value? {disposability : Disposability} {release : Release}
    (h : releaseOf scope disposability name = some release) : release.value? = some name := by
  unfold releaseOf at h
  split at h
  · cases h
    rfl
  · cases h

theorem releaseOf_isSome (scope : Scope) (disposability : Disposability) (name : String) :
    (releaseOf scope disposability name).isSome = (disposability != .none) := by
  cases disposability <;> rfl

/-- The release of a created value is about the variable given for it. -/
theorem creationRelease_value? {release : Release}
    (h : creationRelease scope p args name = some release) : release.value? = some name := by
  unfold creationRelease at h
  split at h
  · obtain ⟨maker, -, rfl⟩ := Option.map_eq_some_iff.mp h
    rfl
  · exact releaseOf_value? h
  · exact releaseOf_value? h
  · exact releaseOf_value? h
  · cases h

/-- A created value has a release if its provider asks for one; a factory must be there for that. -/
theorem creationRelease_isSome (hfactory : p.isFactory = true → args.head?.join.isSome = true) :
    (creationRelease scope p args name).isSome = p.isReleasable := by
  cases p with
  | factory => simpa [creationRelease, Provider.isReleasable] using hfactory rfl
  | construct | call => exact releaseOf_isSome _ _ _
  | decorated site decorator inner =>
      rw [creationRelease, releaseOf_isSome, Decorator.release, Provider.isReleasable]
      split <;> simp_all
  | _ => rfl

namespace Setup.Origin

/-- A release that is about a created value is about the finished value of its step. -/
theorem finishes {release : Release} (h : σ.Origin c steps step)
    (hrelease : step.release = some release) (hvalue : release.value? = some value) :
    ∃ p last, step.statement.value? = some p ∧ last ∈ steps ∧ step.Finishes p value last := by
  cases h with
  | creates hstatement _ _ _ horigin hlast hfinishes =>
      have heq := creationRelease_value? (horigin.symm.trans hrelease)
      cases heq.symm.trans hvalue
      exact ⟨_, _, by rw [hstatement]; rfl, hlast, hfinishes⟩
  | delegates _ _ horigin _ =>
      unfold bodyRelease at horigin
      split at horigin
      · cases horigin.symm.trans hrelease
      · cases horigin.symm.trans hrelease
        cases hvalue
  | _ => simp_all

/-- What a step releases is assigned by the step itself, or by the one that waits for its task. -/
theorem released (h : σ.Origin c steps step) (hstep : step ∈ steps)
    (hreleased : step.released? = some value) :
    ∃ last ∈ steps, last.statement.assigned? = some value ∧ (last = step ∨ last.needs = [step]) := by
  obtain ⟨release, hrelease, hvalue⟩ := Option.bind_eq_some_iff.mp hreleased
  cases hcreated : release.value? with
  | none => exact ⟨step, hstep, by simpa [hcreated] using hvalue, .inl rfl⟩
  | some created =>
      obtain ⟨p, last, -, hlast, hfinishes⟩ := h.finishes hrelease hcreated
      obtain rfl : created = value := by simpa [hcreated] using hvalue
      refine ⟨last, hlast, hfinishes.assigned, ?_⟩
      cases hfinishes with
      | own => exact .inl rfl
      | awaited _ _ hneeds _ => exact .inr hneeds

end Setup.Origin

/-! ### Values passed -/

/-- The step behind a supply leads to the step of the plan that assigns the variable, if any does. -/
theorem Embedded.reaches_of_standsFor {among : Provider → Prop} {root plan : Plan}
    {around : List (Plan × Step)} {i : Provider.Identity} {supply : Supply} {d : Step}
    (h : Embedded c among env root around plan τ) (hstands : τ.StandsFor plan.steps i supply)
    (hi : ∀ param name depth, i ≠ .parameter param name depth) (hd : d ∈ plan.steps)
    (hname : d.statement.assigned? = some supply.name) :
    ∃ step, supply.step? = some step ∧ step.Reaches d := by
  cases hstands with
  | parameter => exact absurd rfl (hi _ _ _)
  | around hmem => exact absurd hname (h.delegate_not_assigned hmem (Plan.mem_tree hd))
  | made _ hdelivers =>
      obtain ⟨-, -, -, hlast, hfinishes, hreaches⟩ := hdelivers
      obtain rfl := h.eq_of_assigned hlast hd hfinishes.assigned hname
      exact ⟨_, rfl, hreaches⟩
  | inherited _ _ hdelivers =>
      obtain ⟨-, -, -, hlast, hfinishes, -⟩ := hdelivers
      exact absurd hfinishes.assigned (h.outside_not_assigned hlast (Plan.mem_tree hd) hname)

/-- Where a value is passed, the step that assigns the one variable needs the step that assigns the
other. -/
theorem Embedded.dependsOn_of_passes {among : Provider → Prop} {root plan : Plan}
    {around : List (Plan × Step)} {v w : String} {d : Step}
    (h : Embedded c among env root around plan τ) (hpasses : plan.Passes τ.base v w)
    (hd : d ∈ plan.steps) (hname : d.statement.assigned? = some v) :
    ∃ e ∈ plan.steps, e.statement.assigned? = some w ∧ e.DependsOn d := by
  obtain ⟨step, hstep, hmem⟩ := List.mem_flatMap.mp hpasses
  have horigin := h.origin hstep
  -- A value is passed by a creation, as an argument, or by an await, from the task to the value. Either
  -- way the step needs the one that assigned it, or what leads there.
  cases horigin with
  | creates hstatement hargs hneeds hsupplies =>
      rw [hstatement] at hmem
      obtain ⟨rfl, request, q, harg, hprovider, hnot⟩ := Statement.mem_passes_create.mp hmem
      rw [hargs] at harg
      obtain ⟨q', supply, hprovider', hsupply, rfl, -, hstands⟩ := Setup.standsFor_of_zip hsupplies harg
      cases hprovider.symm.trans hprovider'
      obtain ⟨need, hneed, hreaches⟩ :=
        h.reaches_of_standsFor hstands (Provider.identity_ne_parameter hnot) hd hname
      refine ⟨step, hstep, by rw [hstatement]; rfl, need, ?_, hreaches⟩
      rw [hneeds]
      exact List.mem_filterMap.mpr ⟨some supply, hsupply, hneed⟩
  | awaits hstatement hmaker hneeds htask =>
      rw [hstatement] at hmem
      obtain ⟨rfl, rfl⟩ := Statement.mem_passes_await.mp hmem
      obtain rfl := h.eq_of_assigned hmaker hd htask hname
      exact ⟨step, hstep, by rw [hstatement]; rfl, _, by rw [hneeds]; exact List.mem_singleton_self _,
        .refl _⟩
  | _ => simp_all [Statement.passes]

/-- The same along a chain of values passed. -/
theorem Embedded.dependsOn_of_chain {among : Provider → Prop} {root plan : Plan}
    {around : List (Plan × Step)} {v w : String} {d : Step}
    (h : Embedded c among env root around plan τ)
    (hchain : Relation.TransGen (plan.Passes τ.base) v w) (hd : d ∈ plan.steps)
    (hname : d.statement.assigned? = some v) :
    ∃ e ∈ plan.steps, e.statement.assigned? = some w ∧ e.DependsOn d := by
  induction hchain with
  | single hpasses => exact h.dependsOn_of_passes hpasses hd hname
  | tail _ hpasses ih =>
      obtain ⟨e, he, hename, hdepends⟩ := ih
      obtain ⟨f, hf, hfname, hfurther⟩ := h.dependsOn_of_passes hpasses he hename
      exact ⟨f, hf, hfname, hfurther.trans_reaches hdepends.reaches⟩

/-- The step that releases the later value leads to the one that releases the earlier value. -/
theorem Embedded.reaches_of_released {among : Provider → Prop} {root plan : Plan}
    {around : List (Plan × Step)} {v w : String} {x y : Step}
    (h : Embedded c among env root around plan τ) (hx : x ∈ plan.steps) (hy : y ∈ plan.steps)
    (hxw : x.released? = some w) (hyv : y.released? = some v)
    (hchain : Relation.TransGen (plan.Passes τ.base) v w) : x.Reaches y ∧ x ≠ y := by
  obtain ⟨d, hd, hdname, hdy⟩ := (h.origin hy).released hy hyv
  obtain ⟨e, he, hename, hex⟩ := (h.origin hx).released hx hxw
  obtain ⟨e', he', hename', hdepends⟩ := h.dependsOn_of_chain hchain hd hdname
  obtain rfl := h.eq_of_assigned he' he hename' hename
  have hreaches : d.Reaches y := by
    rcases hdy with rfl | hneeds
    · exact .refl _
    · exact .of_mem (by rw [hneeds]; exact List.mem_singleton_self _)
  refine ⟨?_, ?_⟩
  · rcases hex with rfl | hneeds
    · exact (hdepends.trans_reaches hreaches).reaches
    · -- The step that waits needs nothing but the step that hands out the task.
      obtain ⟨need, hneed, hneedReaches⟩ := hdepends.trans_reaches hreaches
      rw [hneeds, List.mem_singleton] at hneed
      exact hneed ▸ hneedReaches
  · rintro rfl
    obtain rfl : v = w := Option.some.inj (hyv.symm.trans hxw)
    exact hdepends.ne (h.eq_of_assigned he hd hename hdname)

end Assembly

/-- Where the value that one step releases went into the value that another step of the plan releases,
directly or through others, the value it went into is released first. -/
theorem planResolution_releaseOrder (config : Config) (trigger : Trigger) (env : Environment)
    (isAsync : Bool) (target : Provider) (plan : Plan)
    (h : planResolution config trigger env isAsync target = .ok plan)
    (around : List (Plan × Step)) (nested : Plan) (hwithin : plan.Within around nested) (x y : Step)
    (hx : x ∈ nested.steps) (hy : y ∈ nested.steps) (v w : String) (hxw : x.released? = some w)
    (hyv : y.released? = some v)
    (hchain : Relation.TransGen (nested.Passes (env.within around)) v w) :
    ∃ before after, nested.releaseOrder = before ++ x :: after ∧ y ∈ after := by
  obtain ⟨τ, hembedded⟩ := Assembly.planResolution_embedded_anyhow h hwithin
  rw [← hembedded.base] at hchain
  obtain ⟨hreaches, hne⟩ := hembedded.reaches_of_released hx hy hxw hyv hchain
  obtain ⟨n, hplanned⟩ := Assembly.planResolution_planned h
  obtain ⟨B, lo, hi, hnested, hB, -⟩ :=
    hplanned.within (Surroundings.sound_empty _ _ _) hwithin
  exact (hnested.precedes hB hx hy hreaches hne).releaseOrder
    (Option.isSome_of_isSome_bind (by rw [← Step.released?, hyv]; rfl))
    (Option.isSome_of_isSome_bind (by rw [← Step.released?, hxw]; rfl))

/-- A value that is waited for, exposed as another type, decorated and collected in an array is released
after the value built from that array. Its release is attached to the step that hands out the task. -/
theorem planResolution_releaseOrder_chain :
    let a : Ty := .plain "A"
    let b : Ty := .plain "B"
    let i : Ty := .plain "I"
    let r : Ty := .plain "R"
    let needs (tys : List Ty) : List Parameter := tys.map fun ty => ⟨"", 0, ty, false⟩
    let function (ty : Ty) : Method := .function (.plain "M") "make" [] ty
    let options : Options := { isAsync := true, disposability := .both, exposedAs := [i] }
    let env := ((({} : Declarations).addFunction (function a) .resolution options)
      |>.addFunction (function b) .resolution options
      |>.addDecorator ((Decorator.construction (.new (.plain "D") (needs [i])) i 0).withDispose .sync)
      |>.addConstructor (.new r (needs [.array i])) .resolution { disposability := .sync }).build
    ∃ target plan x y, env.lookup r = some target ∧
      planResolution {} .never env true target = .ok plan ∧ x ∈ plan.steps ∧ y ∈ plan.steps ∧
        x.released? = some "r_0_0" ∧ y.released? = some "a_0_4" ∧
        y.statement.assigned? = some "a_0_5" ∧
        Relation.TransGen (plan.Passes (env.within [])) "a_0_4" "r_0_0" ∧
          ∃ before after, plan.releaseOrder = before ++ x :: after ∧ y ∈ after := by
  intro a b i r needs function options env
  have hsummary : ((env.lookup r).bind fun target =>
      (planResolution {} .never env true target).toOption).map (fun plan =>
        (plan.steps.map fun s => (s.released?, s.statement.assigned?),
          plan.steps.flatMap fun s => s.statement.passes env)) =
      some
        ([(some "a_0_4", some "a_0_5"), (some "b_0_8", some "b_0_9"), (none, some "a_0_4"),
          (none, some "i_0_3"), (some "i_0_2", some "i_0_2"), (none, some "b_0_8"),
          (none, some "i_0_7"), (some "i_0_6", some "i_0_6"), (none, some "i_array_0_1"),
          (some "r_0_0", some "r_0_0")],
        [("a_0_5", "a_0_4"), ("a_0_4", "i_0_3"), ("i_0_3", "i_0_2"), ("b_0_9", "b_0_8"),
          ("b_0_8", "i_0_7"), ("i_0_7", "i_0_6"), ("i_0_2", "i_array_0_1"), ("i_0_6", "i_array_0_1"),
          ("i_array_0_1", "r_0_0")]) := by cbv
  obtain ⟨plan, hplan, hsummary⟩ := Option.map_eq_some_iff.mp hsummary
  obtain ⟨target, hlookup, hok⟩ := Option.bind_eq_some_iff.mp hplan
  obtain ⟨hsteps, hpasses⟩ := Prod.mk.inj hsummary
  have hok := Run.ok_of_toOption hok
  have hstep : ∀ summary ∈ plan.steps.map fun s => (s.released?, s.statement.assigned?),
      ∃ s ∈ plan.steps, (s.released?, s.statement.assigned?) = summary :=
    fun _ hsummary => List.mem_map.mp hsummary
  rw [hsteps] at hstep
  obtain ⟨x, hx, hxsummary⟩ := hstep (some "r_0_0", some "r_0_0") (by simp)
  obtain ⟨y, hy, hysummary⟩ := hstep (some "a_0_4", some "a_0_5") (by simp)
  obtain ⟨hxw, -⟩ := Prod.mk.inj hxsummary
  obtain ⟨hyv, hyname⟩ := Prod.mk.inj hysummary
  have hedge : ∀ edge ∈ plan.steps.flatMap fun s => s.statement.passes env,
      plan.Passes (env.within []) edge.1 edge.2 := fun _ hedge => hedge
  rw [hpasses] at hedge
  have hchain : Relation.TransGen (plan.Passes (env.within [])) "a_0_4" "r_0_0" :=
    .head (hedge ("a_0_4", "i_0_3") (by simp)) <| .head (hedge ("i_0_3", "i_0_2") (by simp)) <|
      .head (hedge ("i_0_2", "i_array_0_1") (by simp)) <|
        .single (hedge ("i_array_0_1", "r_0_0") (by simp))
  exact ⟨target, plan, x, y, hlookup, hok, hx, hy, hxw, hyv, hyname, hchain,
    planResolution_releaseOrder _ _ _ _ _ _ hok _ _ .root x y hx hy _ _ hxw hyv hchain⟩

/-! ### What is released -/

namespace Assembly

variable {c : Settings} {among : Provider → Prop} {env : Environment} {root plan : Plan}
  {around : List (Plan × Step)} {τ : Setup} {carrier step : Step} {release : Release}

/-- A delegate passes on what its body releases: its step drains the registry that the body pushes its
releases to. -/
theorem Embedded.drains (h : Embedded c among env root around plan τ) (hcarrier : carrier ∈ plan.steps)
    {body : Plan} (hbody : carrier.statement.body? = some body)
    (hdelegate : carrier.statement.isDelegate = true) (hstep : step ∈ body.steps)
    (hrelease : step.release = some release) : carrier.Drains plan release := by
  have horigin := h.origin hcarrier
  cases horigin with
  | @delegates name registry p body' hstatement _ hdrain hopened =>
      obtain rfl : body' = body := by
        rw [hstatement] at hbody
        exact Option.some.inj hbody
      have hmem : release ∈ body'.steps.filterMap Step.release :=
        List.mem_filterMap.mpr ⟨step, hstep, hrelease⟩
      unfold bodyRelease at hdrain
      split at hdrain
      · rename_i hnone
        rw [hnone] at hmem
        cases hmem
      · obtain ⟨opening, hopening, hregistry⟩ := hopened _ hdrain
        refine ⟨_, _, _, _, _, hstatement, hdrain, fun hasync => ?_, opening, hopening, hregistry⟩
        rw [List.any_eq_true.mpr ⟨release, hmem, hasync⟩, Bool.true_or]
  | _ => simp_all [Statement.isDelegate]

/-- The factory object that makes a value is among the arguments of its creation. -/
theorem Setup.maker_supplied {σ : Setup} {steps : List Step} {p : Provider}
    {supplies : List (Option Supply)} (hp : p.isFactory = true)
    (h : List.Forall₂ (σ.Supplies steps) (env.requests p) supplies) :
    (namesOf supplies).head?.join.isSome = true := by
  cases p with
  | factory site product maker lifetime isAsync =>
      cases h with
      | cons hmaker hnil =>
          cases hnil
          cases hmaker with
          | supplied => rfl
          | leftOut hnone => cases hnone
  | _ => cases hp

/-- What a plan creates has the release that its provider asks for, about the finished value. -/
theorem Embedded.creation_released (h : Embedded c among env root around plan τ) {step : Step}
    (hstep : step ∈ plan.steps) {name : String} {p : Provider} {args : List (Option String)}
    (hcreate : step.statement = .create name p args) :
    step.release.isSome = p.isReleasable ∧ ∀ release, step.release = some release →
      ∃ value last, release.value? = some value ∧ last ∈ plan.steps ∧ step.Finishes p value last ∧
        last.statement.givesTask = false ∧ ⟨value, p.ty⟩ ∈ plan.declarations := by
  have horigin := h.origin hstep
  cases horigin with
  | creates hstatement hargs _ hsupplies hrelease hlast hfinishes =>
      cases hcreate.symm.trans hstatement
      refine ⟨?_, fun release hsome => ⟨_, _, creationRelease_value? (hrelease.symm.trans hsome), hlast,
        hfinishes, hfinishes.not_givesTask (by rw [hcreate]; rfl),
        List.mem_filterMap.mpr ⟨_, hlast, hfinishes.declared⟩⟩⟩
      rw [hrelease, hargs]
      exact creationRelease_isSome fun hfactory => Setup.maker_supplied hfactory hsupplies
  | _ => simp_all

/-- A release in the tree that is about a created value is about the finished value of its step. -/
theorem finishes_of_mem_tree {config : Config} {trigger : Trigger} {isAsync : Bool} {target : Provider}
    {value : String} (h : planResolution config trigger env isAsync target = .ok root)
    (hstep : step ∈ root.tree) (hvalue : step.release.bind Release.value? = some value) :
    ∃ p last, step.statement.value? = some p ∧ last ∈ root.tree ∧ step.Finishes p value last := by
  obtain ⟨around, plan, hwithin, hstep⟩ := Plan.exists_within .root hstep
  obtain ⟨release, hrelease, hvalue⟩ := Option.bind_eq_some_iff.mp hvalue
  obtain ⟨τ, hembedded⟩ := planResolution_embedded_anyhow h hwithin
  obtain ⟨p, last, hp, hlast, hfinishes⟩ := (hembedded.origin hstep).finishes hrelease hvalue
  exact ⟨p, last, hp, hwithin.mem_tree hlast, hfinishes⟩

/-- The delegates around a release pass it on, by induction on the plans around. -/
theorem drains_of_within {config : Config} {trigger : Trigger} {isAsync : Bool} {target : Provider}
    (h : planResolution config trigger env isAsync target = .ok root)
    (hwithin : root.Within around plan) (hstep : step ∈ plan.steps)
    (hrelease : step.release = some release) {inner outer : List (Plan × Step)} {plan' : Plan}
    (haround : around = inner ++ (plan', carrier) :: outer)
    (hinner : ∀ level ∈ inner, level.2.statement.isDelegate = true)
    (hcarrier : carrier.statement.isDelegate = true) : carrier.Drains plan' release := by
  induction hwithin generalizing step release inner with
  | root => simp at haround
  | @body around' plan body next hwithin hnext hbody ih =>
      obtain ⟨τ, hembedded⟩ := planResolution_embedded_anyhow h hwithin
      cases inner with
      | nil =>
          obtain ⟨heq, rfl⟩ := List.cons.inj haround
          cases heq
          exact hembedded.drains hnext hbody hcarrier hstep hrelease
      | cons level inner =>
          obtain ⟨rfl, htail⟩ := List.cons.inj haround
          obtain ⟨_, _, _, registry, waits, -, hdrain, hwaits, -⟩ :=
            hembedded.drains hnext hbody (hinner _ List.mem_cons_self) hstep hrelease
          obtain ⟨name, p, body', registry', waits', hstatement, hdrain', hwaits', hopened⟩ :=
            ih hnext hdrain htail fun level hlevel => hinner level (List.mem_cons_of_mem _ hlevel)
          exact ⟨name, p, body', registry', waits', hstatement, hdrain', hwaits' ∘ hwaits, hopened⟩

end Assembly

/-- What a plan and the bodies in it create is released if it has to be, through its finished value; the
delegates around pass the release on; and no two steps of the tree release one value. -/
theorem planResolution_releasesAll (config : Config) (trigger : Trigger) (env : Environment)
    (isAsync : Bool) (target : Provider) (plan : Plan)
    (h : planResolution config trigger env isAsync target = .ok plan) :
    (plan.tree.filterMap fun step => step.release.bind Release.value?).Nodup ∧
      ∀ around nested, plan.Within around nested → nested.ReleasesAll around := by
  have hdistinct := Assembly.planResolution_distinct h
  refine ⟨List.pairwise_filterMap.mpr ((hdistinct.ids.of_map _).imp_of_mem ?_),
    fun around nested hwithin => ?_⟩
  · rintro x y hx hy hne value hxvalue _ hyvalue rfl
    obtain ⟨p, last, hp, hlast, hfinishes⟩ := Assembly.finishes_of_mem_tree h hx hxvalue
    obtain ⟨q, last', hq, hlast', hfinishes'⟩ := Assembly.finishes_of_mem_tree h hy hyvalue
    obtain rfl :=
      eq_of_assigned hdistinct.names hlast hlast' hfinishes.assigned hfinishes'.assigned
    exact hne (hfinishes.maker_eq hfinishes' (by rw [hp]; rfl) (by rw [hq]; rfl))
  · obtain ⟨τ, hembedded⟩ := Assembly.planResolution_embedded_anyhow h hwithin
    exact ⟨fun step hstep name p args hcreate => (hembedded.creation_released hstep hcreate).1,
      fun step hstep name p args hcreate => (hembedded.creation_released hstep hcreate).2,
      fun step hstep release hrelease inner outer plan' carrier haround hinner hcarrier =>
        Assembly.drains_of_within h hwithin hstep hrelease haround hinner hcarrier⟩

/-- A value created in the body of a delegate, which itself is created in the body of a delegate; all of
them can wait. -/
theorem planResolution_releasesAll_nested :
    let b : Ty := .plain "B"
    let r : Ty := .plain "R"
    let needs (tys : List Ty) : List Parameter := tys.map fun ty => ⟨"", 0, ty, false⟩
    let env := ((({} : Declarations).addConstructor (.new b []) .resolution
        { isAsync := true, disposability := .both })
      |>.addConstructor (.new r (needs [.delegate [] (.delegate [] b true) true])) .resolution {}).build
    ∃ target plan carrier body inner innermost, env.lookup r = some target ∧
      planResolution {} .never env true target = .ok plan ∧
      plan.Within [(body, inner), (plan, carrier)] innermost ∧
        innermost.steps.map Step.release = [some (.dispose "b_2_3" true), none, none] ∧
        inner.release = some (.drain "func_b_1_2_disposeActions" true) ∧
        carrier.release = some (.drain "func_func_b_0_1_disposeActions" true) ∧
        (plan.tree.filterMap fun step => step.release.bind Release.value?).Nodup ∧
          innermost.ReleasesAll [(body, inner), (plan, carrier)] := by
  intro b r needs env
  have hsummary : ((env.lookup r).bind fun target =>
      (planResolution {} .never env true target).toOption).map (fun plan =>
        plan.steps.map fun s => (s.release, s.statement.body?.map fun body =>
          body.steps.map fun t => (t.release, t.statement.body?.map fun innermost =>
            innermost.steps.map Step.release))) =
      some [(none, none),
        (some (.drain "func_func_b_0_1_disposeActions" true), some [(none, none),
          (some (.drain "func_b_1_2_disposeActions" true),
            some [some (.dispose "b_2_3" true), none, none])]),
        (none, none)] := by cbv
  obtain ⟨plan, hplan, hsteps⟩ := Option.map_eq_some_iff.mp hsummary
  obtain ⟨target, hlookup, hok⟩ := Option.bind_eq_some_iff.mp hplan
  have hok := Run.ok_of_toOption hok
  obtain ⟨_, rest, hplan₁, -, hrest⟩ := List.map_eq_cons_iff.mp hsteps
  obtain ⟨carrier, _, rfl, hcarrier, -⟩ := List.map_eq_cons_iff.mp hrest
  obtain ⟨hdrain, hbody⟩ := Prod.mk.inj hcarrier
  obtain ⟨body, hbody, hbodySteps⟩ := Option.map_eq_some_iff.mp hbody
  obtain ⟨_, rest, hbody₁, -, hrest⟩ := List.map_eq_cons_iff.mp hbodySteps
  obtain ⟨inner, _, rfl, hinner, -⟩ := List.map_eq_cons_iff.mp hrest
  obtain ⟨hdrain', hinnermost⟩ := Prod.mk.inj hinner
  obtain ⟨innermost, hinnermost, hreleases⟩ := Option.map_eq_some_iff.mp hinnermost
  have hwithin : plan.Within [(body, inner), (plan, carrier)] innermost :=
    .body (.body .root (by simp [hplan₁]) hbody) (by simp [hbody₁]) hinnermost
  obtain ⟨hnodup, hall⟩ := planResolution_releasesAll _ _ _ _ _ _ hok
  exact ⟨target, plan, carrier, body, inner, innermost, hlookup, hok, hwithin, hreleases, hdrain',
    hdrain, hnodup, hall _ _ hwithin⟩

end Wiring
