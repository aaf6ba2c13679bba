import Mathlib
import Wiring.Declarations
import Wiring.Proofs.Assembly.Layout

/-!
# The shape of assembled plans

Whatever the container, the provider and the scheduler, an assembled plan is a tree of plans whose
steps are in order and never need anything from elsewhere.

* `planResolution_topological` — needs lead to the same plan or to one around it, and within a plan
  they stand first; all steps of the tree have distinct numbers.
-/

namespace Wiring

namespace Assembly

/-- An assembled plan was laid down with nothing around. -/
theorem run_planned (admitted : String → Prop) {config : Config} {trigger : Trigger} {scope : Scope}
    {env : Environment} {target : Provider} {plan : Plan}
    (h : run config trigger scope env target = .ok plan)
    (hscope : scope.Fits admitted ⟨[], admitted, env.depth⟩)
    (henv : env.Knows admitted admitted) (htarget : Known admitted admitted target) :
    ∃ n, Planned config.scheduler scope.isAsync ⟨[], admitted, env.depth⟩ 0 plan n := by
  obtain ⟨s, hassembles⟩ := run_sound h
  exact ⟨s.numbered, hassembles.planned hscope ⟨henv, htarget, .inr rfl⟩ (by simp)⟩

/-- So was the plan of a resolution, whatever its parameters are called. -/
theorem planResolution_planned {config : Config} {trigger : Trigger} {env : Environment}
    {isAsync : Bool} {target : Provider} {plan : Plan}
    (h : planResolution config trigger env isAsync target = .ok plan) :
    ∃ n, Planned config.scheduler isAsync ⟨[], fun _ => True, env.depth⟩ 0 plan n := by
  have hknown : ∀ p, Known (fun _ => True) (fun _ => True) p := fun _ => .of_all fun _ => trivial
  exact run_planned (fun _ => True) h ⟨fun _ _ => trivial, by simp, .inl rfl⟩
    (.of_all fun _ => trivial) (hknown target)

end Assembly

/-- In an assembled plan, and in every plan in it, each step stands after the steps of its plan that
it needs, everything needed belongs to the plan or to one around it, and no two steps of the tree
have one number. -/
theorem planResolution_topological (config : Config) (trigger : Trigger) (env : Environment)
    (isAsync : Bool) (target : Provider) (plan : Plan)
    (h : planResolution config trigger env isAsync target = .ok plan) :
    (plan.tree.map Step.id).Nodup ∧
      ∀ around nested, plan.Within around nested →
        Plan.Ordered nested.steps ∧
          ∀ step ∈ nested.steps, ∀ need ∈ step.needs,
            need ∈ nested.steps ∨ ∃ outer ∈ around, need ∈ outer.1.steps := by
  let A : Surroundings := ⟨[], fun _ => True, env.depth⟩
  have hA : A.Sound 0 := Surroundings.sound_empty _ _ _
  have hknown : ∀ p, Known (fun _ => True) (fun _ => True) p := fun p =>
    .inl (.of_all fun _ => trivial)
  obtain ⟨n, hplanned⟩ := Assembly.run_planned (fun _ => True) h
    ⟨fun _ _ => trivial, by simp, .inl rfl⟩
    ⟨fun p _ => .of_all fun _ => trivial, fun _ _ entry _ => hknown entry.2⟩ (hknown target)
  refine ⟨(hplanned.tree_spec hA).1, fun around nested hwithin =>
    ⟨?_, fun step hstep need hneed => hplanned.needs_around hA rfl hwithin hstep hneed⟩⟩
  obtain ⟨B, lo, hi, hnested, hB, -⟩ := hplanned.within hA hwithin
  cases hnested with
  | plan emission harranged => exact (emission.arranged hB harranged).2

/-- A synchronous delegate and an owned value over a singleton that suspends; the plan is
rearranged. -/
theorem planResolution_topological_nested :
    let a : Ty := .plain "A"
    let b : Ty := .plain "B"
    let r : Ty := .plain "R"
    let needs (tys : List Ty) : List Parameter := tys.map fun ty => ⟨"", 0, ty, false⟩
    let env := ((({} : Declarations).addConstructor (.new a []) .single { isAsync := true })
      |>.addConstructor (.new b (needs [a])) .resolution {}
      |>.addConstructor (.new r (needs [.owned b true, .delegate [] b false])) .resolution {}).build
    ∃ target plan, env.lookup r = some target ∧
      planResolution {} .never env true target = .ok plan ∧
      plan.tree.map Step.id = [5, 3, 0, 1, 2, 4, 6, 8, 7, 9] ∧
      (plan.tree.map Step.id).Nodup ∧
        ∀ around nested, plan.Within around nested →
          Plan.Ordered nested.steps ∧
            ∀ step ∈ nested.steps, ∀ need ∈ step.needs,
              need ∈ nested.steps ∨ ∃ outer ∈ around, need ∈ outer.1.steps := by
  intro a b r needs env
  have hids : ((env.lookup r).bind fun target =>
      (planResolution {} .never env true target).toOption).map (fun plan => plan.tree.map Step.id) =
        some [5, 3, 0, 1, 2, 4, 6, 8, 7, 9] := by cbv
  obtain ⟨plan, hplan, hids⟩ := Option.map_eq_some_iff.mp hids
  obtain ⟨target, hlookup, hok⟩ := Option.bind_eq_some_iff.mp hplan
  have hok := Run.ok_of_toOption hok
  exact ⟨target, plan, hlookup, hok, hids, planResolution_topological _ _ _ _ _ _ hok⟩

end Wiring
