import Mathlib
import Wiring.Declarations
import Wiring.Proofs.Assembly.Linearity

/-!
# What a step needs covers what it reads

The steps that a step needs are noted when it is made. Whatever it reads that the same plan fills is
filled by one of them, or by one that they need in turn. So the steps can be put in any other order in
which each stands after those that it needs, and still nothing is read before it is filled.

* `Statement.operands` — what a statement reads, the registry of a delegate included.
* `Registered` — the delegate that a registry was opened for needs the step that opened it; every part
  of the assembly adds such steps.
* `planResolution_dependsOn` — a step depends on the one of its plan that fills what it reads.
-/

namespace Wiring

/-- The variables that a statement reads when it runs, and the registry that a delegate is given. -/
def Statement.operands (statement : Statement) : List String :=
  statement.reads ++ statement.registry?.toList

/-! ### Registries -/

/-- The step fills no variable that is called like a registry. -/
def Step.OpensNothing (step : Step) : Prop :=
  ∀ stem, step.statement.assigned? ≠ some (stem ++ "_disposeActions")

/-- Each registry that the steps open is that of a delegate among them, which needs it. -/
def Registered (steps : List Step) : Prop :=
  ∀ opening ∈ steps, ∀ stem, opening.statement.assigned? = some (stem ++ "_disposeActions") →
    ∃ carrier ∈ steps, opening ∈ carrier.needs ∧
      carrier.statement.registry? = some (stem ++ "_disposeActions")

namespace Registered

variable {first second : List Step} {step : Step}

theorem nil : Registered [] := by simp [Registered]

theorem append (hfirst : Registered first) (hsecond : Registered second) :
    Registered (first ++ second) := by
  intro opening hopening stem hname
  rcases List.mem_append.mp hopening with hmem | hmem
  · obtain ⟨carrier, hcarrier, hrest⟩ := hfirst opening hmem stem hname
    exact ⟨carrier, List.mem_append_left _ hcarrier, hrest⟩
  · obtain ⟨carrier, hcarrier, hrest⟩ := hsecond opening hmem stem hname
    exact ⟨carrier, List.mem_append_right _ hcarrier, hrest⟩

theorem perm (h : Registered second) (hperm : first.Perm second) : Registered first := by
  intro opening hopening stem hname
  obtain ⟨carrier, hcarrier, hrest⟩ := h opening (hperm.subset hopening) stem hname
  exact ⟨carrier, hperm.symm.subset hcarrier, hrest⟩

theorem single (h : step.OpensNothing) : Registered [step] := by
  intro opening hopening stem hname
  obtain rfl := List.mem_singleton.mp hopening
  exact absurd hname (h stem)

end Registered

namespace Assembly

variable {c : Settings} {scope : Scope} {env : Environment} {p : Provider} {s s' t u : State}
  {supply : Supply} {step : Step}

/-! ### Steps that open nothing -/

theorem opensNothing_of_none (h : step.statement.assigned? = none) : step.OpensNothing := by
  intro stem hname
  rw [h] at hname
  cases hname

theorem opensNothing_of_variable {name : String} (hname : IsVariable name)
    (h : step.statement.assigned? = some name) : step.OpensNothing := by
  intro stem hregistry
  exact hname.ne_registry stem (Option.some.inj (h.symm.trans hregistry))

theorem opensNothing_of_function {ty : Ty} {n : Nat}
    (h : step.statement.assigned? = some (functionName ty n)) : step.OpensNothing := by
  intro stem hregistry
  have heq : "create_" ++ ty.identifier ++ "_" ++ toString n = stem ++ "_disposeActions" :=
    Option.some.inj (h.symm.trans hregistry)
  exact numbered_ne_plain (registry_endsPlain stem) heq

/-! ### The parts of a derivation -/

/-- The registries opened from one state to another are those of delegates made in the meantime. -/
def State.Registers (s s' : State) : Prop :=
  ∃ new, s'.steps = s.steps ++ new ∧ Registered new

namespace State.Registers

theorem same (hsteps : s'.steps = s.steps) : Registers s s' :=
  ⟨[], hsteps.trans (List.append_nil _).symm, .nil⟩

theorem trans (h : Registers s t) (h' : Registers t u) : Registers s u := by
  obtain ⟨new, hsteps, hnew⟩ := h
  obtain ⟨new', hsteps', hnew'⟩ := h'
  exact ⟨new ++ new', by rw [hsteps', hsteps, List.append_assoc], hnew.append hnew'⟩

/-- One more step, which opens no registry. -/
theorem afterPlain (h : step.OpensNothing) : Registers s (s.afterStep step) :=
  ⟨[step], rfl, .single h⟩

end State.Registers

theorem AsksAccessor.registers (h : AsksAccessor c scope env p s supply s') :
    State.Registers s s' := by
  cases h with
  | @sync answers t asking _ ht hasking =>
      subst ht
      have hasked : asking.OpensNothing :=
        opensNothing_of_variable (isVariable_variableName _ _ _) (by rw [hasking]; rfl)
      exact ⟨[asking], rfl, .single hasked⟩
  | @async answers t asking waiting _ ht hasking hwaiting =>
      subst ht
      have hasked : asking.OpensNothing :=
        opensNothing_of_variable (isVariable_variableName _ _ _) (by rw [hasking]; rfl)
      have hwaited : waiting.OpensNothing :=
        opensNothing_of_variable (isVariable_variableName _ _ _) (by rw [hwaiting]; rfl)
      exact ⟨[asking] ++ [waiting], by simp [State.afterNote], (Registered.single hasked).append
        (.single hwaited)⟩

theorem CreatesValue.registers {name : String} {args : List (Option String)} {needs : List Step}
    (h : CreatesValue scope env p name args needs s step s') (hname : IsVariable name) :
    State.Registers s s' := by
  cases h with
  | plain _ _ hcreating =>
      exact .afterPlain (opensNothing_of_variable hname (by rw [hcreating]; rfl))
  | @awaited t creating _ _ _ ht hcreating hwaiting =>
      have hcreated : State.Registers t (t.afterStep creating) := .afterPlain
        (opensNothing_of_variable (isVariable_variableName _ _ _) (by rw [hcreating]; rfl))
      have hnamed : State.Registers s t := .same (by rw [ht]; rfl)
      exact (hnamed.trans hcreated).trans
        (.afterPlain (opensNothing_of_variable hname (by rw [hwaiting]; rfl)))
  | @initialized creating _ _ _ hcreating hstarting =>
      have hcreated : State.Registers s (s.afterStep creating) :=
        .afterPlain (opensNothing_of_variable hname (by rw [hcreating]; rfl))
      exact hcreated.trans (.afterPlain (opensNothing_of_none (by rw [hstarting]; rfl)))
  | @initializedAwaited t creating starting _ _ _ hcreating ht hstarting hwaiting =>
      have hcreated : State.Registers s (s.afterStep creating) :=
        .afterPlain (opensNothing_of_variable hname (by rw [hcreating]; rfl))
      have hnamed : State.Registers (s.afterStep creating) t := .same (by rw [ht]; rfl)
      have hstarted : State.Registers t (t.afterStep starting) := .afterPlain
        (opensNothing_of_variable (isVariable_variableName _ _ _) (by rw [hstarting]; rfl))
      exact ((hcreated.trans hnamed).trans hstarted).trans
        (.afterPlain (opensNothing_of_none (by rw [hwaiting]; rfl)))

/-- A delegate needs the step that opens its registry, if its body releases anything. -/
theorem EmitsDelegate.registers {name : String} {body : Plan} {needs : List Step}
    (h : EmitsDelegate scope p name body needs s step s') (hname : IsVariable name) :
    State.Registers s s' := by
  cases h with
  | plain _ hcreating =>
      exact .afterPlain (opensNothing_of_variable hname (by rw [hcreating]; rfl))
  | @registered drain opening _ _ hopening hcreating =>
      refine ⟨[opening, step], by simp, fun other hother stem hassigned => ?_⟩
      have hdelegate : step.OpensNothing :=
        opensNothing_of_variable hname (by rw [hcreating]; rfl)
      rcases List.mem_pair.mp hother with rfl | rfl
      · have hopened : some (name ++ "_disposeActions") = some (stem ++ "_disposeActions") := by
          rw [← hassigned, hopening]
          rfl
        refine ⟨step, by simp, by rw [hcreating]; simp [State.draft], ?_⟩
        rw [← hopened, hcreating]
        rfl
      · exact absurd hassigned (hdelegate stem)

/-! ### Derivations -/

-- A body is a plan of its own, with registries of its own.
mutual

/-- Obtaining a value opens registries only for the delegates that it makes, right before each of them
and under the delegate's name. -/
theorem Obtains.registers {c : Settings} {scope : Scope} {isTarget : Bool} {env : Environment}
    {p : Provider} {s s' : State} {supply : Supply} :
    Obtains c scope isTarget env p s supply s' → State.Registers s s'
  | .atHand _ | .parameter _ => .same rfl
  | .accessor _ _ hasks => hasks.registers
  | .delegate _ _ hname hhoists heach _ hbody hemits => by
      -- Only here is a registry opened, under the variable of the delegate with a suffix: that name is
      -- neither a variable's nor a function's.
      have hahead : State.Registers s _ := .same hhoists.same.1
      exact ((hahead.trans heach.registers).trans (.same hbody.same.1)).trans
        (hemits.registers (hname ▸ isVariable_variableName _ _ _))
  | .ownedAgain _ hname ht _ hstep => by
      subst ht
      exact .afterPlain (opensNothing_of_variable (hname ▸ isVariable_variableName _ _ _)
        (by rw [hstep]; rfl))
  | @Obtains.owned _ _ _ _ _ _ _ _ _ _ t u v _ _ _ defining _ _ hname ht _ _ hbody hdefining _ hv
      hstep => by
      have hsteps : u.afterName.steps = s.steps := hbody.same.1.trans (by rw [ht]; rfl)
      have hdefined : State.Registers u.afterName (u.afterName.afterStep defining) :=
        .afterPlain (opensNothing_of_function (by rw [hdefining]; rfl))
      have hfunction : State.Registers s v := by
        rw [hv]
        exact (State.Registers.same hsteps).trans (hdefined.trans (.same rfl))
      exact hfunction.trans (.afterPlain (opensNothing_of_variable
        (hname ▸ isVariable_variableName _ _ _) (by rw [hstep]; rfl)))
  | .value _ _ _ hname heach hcreates =>
      (heach.registers.trans (hcreates.registers (hname ▸ isVariable_variableName _ _ _))).trans
        (.same (State.afterValue_steps _ _ _))

/-- Obtaining several values opens registries only for the delegates made with them. -/
theorem ObtainsEach.registers {c : Settings} {scope : Scope} {env : Environment}
    {requests : List Request} {s s' : State} {supplies : List (Option Supply)} :
    ObtainsEach c scope env requests s supplies s' → State.Registers s s'
  | .nil => .same rfl
  | .supplied _ head tail => head.registers.trans tail.registers
  | .leftOut _ _ tail => tail.registers

end

variable {σ : Setup} {target : Provider} {plan : Plan}

theorem Assembled.registered (h : Assembled c σ target plan) : Registered plan.steps := by
  obtain ⟨hassembles, -, -, -⟩ := h
  cases hassembles with
  | body hobtains harranges =>
      obtain ⟨new, hsteps, hnew⟩ := hobtains.registers
      exact hnew.perm (harranges.perm.trans (by rw [hsteps]; rfl))

/-- The registry of a delegate is called after it. -/
theorem Setup.Origin.registry_eq {steps : List Step} {registry : String}
    (h : σ.Origin c steps step) (hregistry : step.statement.registry? = some registry) :
    ∃ name, step.statement.assigned? = some name ∧ registry = name ++ "_disposeActions" := by
  cases h with
  | delegates hstatement _ _ _ _ hname =>
      rw [hstatement] at hregistry ⊢
      cases hregistry
      exact ⟨_, rfl, hname⟩
  | asks hstatement | opens hstatement | creates hstatement | starts hstatement | awaits hstatement
  | defines hstatement | calls hstatement =>
      rw [hstatement] at hregistry
      cases hregistry

end Assembly

/-! ### What is read in the tree of a plan -/

section

variable {config : Config} {trigger : Trigger} {env : Environment} {isAsync : Bool}
  {target : Provider} {plan nested : Plan} {around : List (Plan × Step)} {reader writer : Step}
  {name : String}

/-- A delegate depends on the step of its plan that opens its registry. -/
theorem planResolution_dependsOn_registry
    (h : planResolution config trigger env isAsync target = .ok plan)
    (hwithin : plan.Within around nested) (hreader : reader ∈ nested.steps)
    (hwriter : writer ∈ nested.steps) (hregistry : reader.statement.registry? = some name)
    (hassigned : writer.statement.assigned? = some name) : reader.DependsOn writer := by
  obtain ⟨τ, hplaced⟩ := Assembly.planResolution_embedded_anyhow h hwithin
  obtain ⟨_, hassembled⟩ := hplaced.assembled
  obtain ⟨own, hown, rfl⟩ := (hplaced.origin hreader).registry_eq hregistry
  obtain ⟨carrier, hcarrier, hneed, hsame⟩ := hassembled.registered writer hwriter own hassigned
  -- The registry tells the name of the delegate, and the name tells the step.
  obtain ⟨other, hother, heq⟩ := (hplaced.origin hcarrier).registry_eq hsame
  obtain rfl := append_right_cancel heq
  obtain rfl := hplaced.eq_of_assigned hreader hcarrier hown hother
  exact ⟨writer, hneed, .refl writer⟩

/-- A variable that is bound in a body around the plan is filled by no step of the plan. -/
theorem planResolution_not_bound
    (h : planResolution config trigger env isAsync target = .ok plan)
    (hwithin : plan.Within around nested) (hwriter : writer ∈ nested.steps)
    (hassigned : writer.statement.assigned? = some name) {level : Plan × Step}
    (hlevel : level ∈ around) (depth : Nat) : name ∉ level.2.statement.bound depth := by
  obtain ⟨outer, carrier⟩ := level
  intro hbound
  obtain ⟨-, -, hcarrier, -⟩ := hwithin.of_mem hlevel
  have htree := hwithin.mem_tree hwriter
  cases hstatement : carrier.statement with
  | delegate own p body registry =>
      rw [hstatement] at hbound
      rcases List.mem_cons.mp hbound with rfl | hparameter
      · exact (Assembly.planResolution_distinct h).not_assigned hwithin hlevel hcarrier
          (by rw [hstatement]; rfl) (Plan.mem_tree hwriter) hassigned
      · obtain ⟨n, hgenerated⟩ := (Assembly.run_named h).2 name (mem_assignedIn htree hassigned)
        cases p with
        | delegate =>
            obtain ⟨index, rfl⟩ := Frame.exists_of_mem_names hparameter
            exact Assembly.not_generated_parameterName hgenerated
        | _ => cases hparameter
  | _ =>
      rw [hstatement] at hbound
      cases hbound

/-- A creation depends on the step of its plan that fills one of its arguments, if that is a variable
and no parameter given in full. -/
theorem planResolution_dependsOn_argument
    (h : planResolution config trigger env isAsync target = .ok plan)
    (hwithin : plan.Within around nested) (hreader : reader ∈ nested.steps)
    (hwriter : writer ∈ nested.steps) (hread : name ∈ reader.statement.reads)
    (hassigned : writer.statement.assigned? = some name) (henv : env.Avoids name)
    (htarget : target.Avoids name) : reader.DependsOn writer := by
  have hdistinct := Assembly.planResolution_distinct h
  obtain ⟨n, hplanned⟩ :=
    Assembly.run_planned (· ≠ name) h ⟨fun _ hne => hne, by simp, .inl rfl⟩ henv htarget
  obtain ⟨B, lo, hi, hnested, hB, hencloses⟩ :=
    hplanned.within (Surroundings.sound_empty _ _ _) hwithin
  -- What the reader reads is filled by a step that it needs, perhaps through others, or is admitted as
  -- a name from around.
  cases hnested with
  | plan emission harranged =>
      have hperm := (emission.arranged hB harranged).1
      rcases emission.reads (hperm.subset hreader) hread with ⟨need, hneed, d, hreaches, hd⟩ | hnamed
      · -- What fills the variable is a step of the plan or of one around, so it is the writer.
        have hclosed := (emission.sound hB).closed
        have hmem : need ∈ (B.after _).steps :=
          hclosed reader (Surroundings.mem_after.mpr (.inr (hperm.subset hreader))) need hneed
        rcases Surroundings.mem_after.mp (hreaches.mem_of_closed hclosed hmem) with hd' | hd'
        -- A writer in a plan around would assign the name a second time.
        · rcases hencloses.steps d hd' with hnone | ⟨_, outer, carrier, _, rfl, houter, -⟩
          · exact absurd hnone List.not_mem_nil
          · exact absurd hassigned (hdistinct.not_assigned hwithin
              (List.mem_append_right _ List.mem_cons_self) houter hd (Plan.mem_tree hwriter))
        · obtain rfl := eq_of_assigned (hdistinct.assigned hwithin) (hperm.symm.subset hd') hwriter hd
            hassigned
          exact ⟨need, hneed, hreaches⟩
      -- A name from around is bound by a carrier or a parameter given in full; the first would be the
      -- name of two things, the second was excluded.
      · rcases hencloses.named name hnamed with hne | ⟨_, outer, carrier, _, rfl, hbound⟩
        · exact absurd rfl hne
        · exact absurd hbound (planResolution_not_bound h hwithin hwriter hassigned
            (List.mem_append_right _ List.mem_cons_self) _)

/-- A step depends on the one of its plan that fills what it reads. Of its arguments none may be a
parameter given in full with the name of the variable. -/
theorem planResolution_dependsOn_read
    (h : planResolution config trigger env isAsync target = .ok plan)
    (hwithin : plan.Within around nested) (hreader : reader ∈ nested.steps)
    (hwriter : writer ∈ nested.steps) (hread : name ∈ reader.statement.reads)
    (hassigned : writer.statement.assigned? = some name)
    (hgiven : name ∈ reader.statement.arguments → env.Avoids name ∧ target.Avoids name) :
    reader.DependsOn writer := by
  obtain ⟨τ, hplaced⟩ := Assembly.planResolution_embedded_anyhow h hwithin
  -- Save for the arguments of a creation, what is read comes from the one step that is needed.
  have hsingle : ∀ {maker : Step}, maker ∈ nested.steps → reader.needs = [maker] →
      maker.statement.assigned? = some name → reader.DependsOn writer := by
    intro maker hmaker hneeds hmakes
    obtain rfl := hplaced.eq_of_assigned hmaker hwriter hmakes hassigned
    exact ⟨maker, by simp [hneeds], .refl maker⟩
  -- Of the statements that read, only a creation takes what others made, some of it perhaps from
  -- around; the others read the variable of their one need.
  cases hplaced.origin hreader with
  | creates hstatement =>
      have hargument : name ∈ reader.statement.arguments := by
        rw [hstatement] at hread ⊢
        exact hread
      obtain ⟨henv, htarget⟩ := hgiven hargument
      exact planResolution_dependsOn_argument h hwithin hreader hwriter hread hassigned henv htarget
  | starts hstatement hmaker hneeds hname =>
      rw [hstatement] at hread
      exact hsingle hmaker hneeds (List.mem_singleton.mp hread ▸ hname)
  | awaits hstatement hmaker hneeds htask =>
      rw [hstatement] at hread
      exact hsingle hmaker hneeds (List.mem_singleton.mp hread ▸ htask)
  | calls hstatement hdefining hfunction _ _ _ _ hneeds =>
      rw [hstatement] at hread
      exact hsingle hdefining hneeds (List.mem_singleton.mp hread ▸ hfunction)
  | asks hstatement | opens hstatement | delegates hstatement | defines hstatement =>
      rw [hstatement] at hread
      exact absurd hread List.not_mem_nil

end

/-- In every plan of the tree a step depends on the one that fills what it reads, unless that is an
argument for which a parameter was given in full that has the name of the variable. So the step that
fills it stands first in whatever order the needs allow for the steps of the plan. -/
theorem planResolution_dependsOn (config : Config) (trigger : Trigger) (env : Environment)
    (isAsync : Bool) (target : Provider) (plan : Plan)
    (h : planResolution config trigger env isAsync target = .ok plan)
    (around : List (Plan × Step)) (nested : Plan) (hwithin : plan.Within around nested)
    (reader writer : Step) (hreader : reader ∈ nested.steps) (hwriter : writer ∈ nested.steps)
    (name : String) (hread : name ∈ reader.statement.operands)
    (hassigned : writer.statement.assigned? = some name)
    (hgiven : name ∈ reader.statement.arguments → env.Avoids name ∧ target.Avoids name) :
    reader.DependsOn writer ∧
      ∀ other : Plan, other.steps.Perm nested.steps → other.isTopological = true →
        other.Precedes writer reader := by
  have hdepends : reader.DependsOn writer := by
    rcases List.mem_append.mp hread with hread | hregistry
    · exact planResolution_dependsOn_read h hwithin hreader hwriter hread hassigned hgiven
    · exact planResolution_dependsOn_registry h hwithin hreader hwriter
        (Option.mem_toList.mp hregistry) hassigned
  refine ⟨hdepends, fun other hsame htopological => ?_⟩
  obtain ⟨n, hplanned⟩ := Assembly.planResolution_planned h
  obtain ⟨B, lo, hi, hnested, hB, -⟩ := hplanned.within (Surroundings.sound_empty _ _ _) hwithin
  exact hnested.precedes_ordered hB hsame ((Plan.isTopological_iff other).mp htopological) hreader
    hwriter hdepends.reaches hdepends.ne

/-- A delegate depends on its registry, and the creation behind it on the wait for a singleton. The
scheduler has put the wait behind the delegate. -/
theorem planResolution_dependsOn_released :
    let a : Ty := .plain "A"
    let b : Ty := .plain "B"
    let r : Ty := .plain "R"
    let needs (tys : List Ty) : List Parameter := tys.map fun ty => ⟨"", 0, ty, false⟩
    let env := ((({} : Declarations).addConstructor (.new a []) .single { isAsync := true })
      |>.addConstructor (.new b []) .resolution { disposability := .sync }
      |>.addConstructor (.new r (needs [a, .delegate [] b false])) .resolution {}).build
    ∃ target asking opening delegate waiting creating v, env.lookup r = some target ∧
      planResolution {} .never env true target =
          .ok ⟨[asking, opening, delegate, waiting, creating], v⟩ ∧
        delegate.statement.operands = ["func_b_0_3_disposeActions"] ∧ delegate.DependsOn opening ∧
        creating.statement.operands = ["a_0_2", "func_b_0_3"] ∧ creating.DependsOn waiting := by
  intro a b r needs env
  have henv : env.Avoids "a_0_2" := ⟨.of_flat (by cbv), fun _ hmem => absurd hmem List.not_mem_nil⟩
  have hsummary : ((env.lookup r).bind fun target =>
      (planResolution {} .never env true target).toOption).map (fun plan => plan.steps.map fun s =>
        (s.statement.assigned?, s.statement.operands, s.statement.arguments)) =
      some [(some "a_0_1", [], []), (some "func_b_0_3_disposeActions", [], []),
        (some "func_b_0_3", ["func_b_0_3_disposeActions"], []), (some "a_0_2", ["a_0_1"], []),
        (some "r_0_0", ["a_0_2", "func_b_0_3"], ["a_0_2", "func_b_0_3"])] := by cbv
  obtain ⟨⟨steps, v⟩, hplan, hsteps⟩ := Option.map_eq_some_iff.mp hsummary
  obtain ⟨target, hlookup, hok⟩ := Option.bind_eq_some_iff.mp hplan
  have hok := Run.ok_of_toOption hok
  obtain ⟨asking, _, rfl, -, hrest⟩ := List.map_eq_cons_iff.mp hsteps
  obtain ⟨opening, _, rfl, hopening, hrest⟩ := List.map_eq_cons_iff.mp hrest
  obtain ⟨delegate, _, rfl, hdelegate, hrest⟩ := List.map_eq_cons_iff.mp hrest
  obtain ⟨waiting, _, rfl, hwaiting, hrest⟩ := List.map_eq_cons_iff.mp hrest
  obtain ⟨creating, _, rfl, hcreating, hrest⟩ := List.map_eq_cons_iff.mp hrest
  obtain rfl := List.map_eq_nil_iff.mp hrest
  simp only [Prod.mk.injEq] at hopening hdelegate hwaiting hcreating
  have hregistry := planResolution_dependsOn _ _ _ _ _ _ hok _ _ .root delegate opening (by simp)
    (by simp) "func_b_0_3_disposeActions" (by simp [hdelegate]) hopening.1 (by simp [hdelegate])
  have hwait := planResolution_dependsOn _ _ _ _ _ _ hok _ _ .root creating waiting (by simp)
    (by simp) "a_0_2" (by simp [hcreating]) hwaiting.1 fun _ => ⟨henv, henv.lookup hlookup⟩
  exact ⟨target, asking, opening, delegate, waiting, creating, v, hlookup, hok, hdelegate.2.1,
    hregistry.1, hcreating.2.1, hwait.1⟩

/-- A parameter given in full is called like a variable, and is an argument of a step that depends on
nothing. -/
theorem planResolution_dependsOn_collides :
    let a : Ty := .plain "A"
    let b : Ty := .plain "B"
    let x : Ty := .plain "X"
    let r : Ty := .plain "R"
    let need (ty : Ty) : Parameter := ⟨"", 0, ty, false⟩
    let env := ((({} : Declarations).addConstructor (.new a []) .dependency {})
      |>.addProvider (.parameter (need b) "a_0_2" 0)
      |>.addConstructor (.new x [need b]) .resolution {}
      |>.addConstructor (.new r [need x, need a]) .resolution {}).build
    ∃ target plan reader writer, env.lookup r = some target ∧
      planResolution {} .never env false target = .ok plan ∧ reader ∈ plan.steps ∧
        writer ∈ plan.steps ∧ "a_0_2" ∈ reader.statement.operands ∧
        writer.statement.assigned? = some "a_0_2" ∧ ¬ reader.DependsOn writer := by
  intro a b x r need env
  have hsummary : ((env.lookup r).bind fun target =>
      (planResolution {} .never env false target).toOption).map (fun plan => plan.steps.map fun s =>
        (s.statement.assigned?, s.statement.operands, s.needs.map Step.id)) =
      some [(some "x_0_1", ["a_0_2"], []), (some "a_0_2", [], []),
        (some "r_0_0", ["x_0_1", "a_0_2"], [0, 1])] := by cbv
  obtain ⟨plan, hplan, hsteps⟩ := Option.map_eq_some_iff.mp hsummary
  obtain ⟨target, hlookup, hok⟩ := Option.bind_eq_some_iff.mp hplan
  obtain ⟨reader, _, hplan₁, hreader, hrest⟩ := List.map_eq_cons_iff.mp hsteps
  obtain ⟨writer, _, rfl, hwriter, -⟩ := List.map_eq_cons_iff.mp hrest
  simp only [Prod.mk.injEq, List.map_eq_nil_iff] at hreader hwriter
  refine ⟨target, plan, reader, writer, hlookup, Run.ok_of_toOption hok, by simp [hplan₁],
    by simp [hplan₁], by simp [hreader], hwriter.1, ?_⟩
  rintro ⟨need, hneed, -⟩
  rw [hreader.2.2] at hneed
  cases hneed

end Wiring
