import Mathlib
import Wiring.Declarations
import Wiring.Proofs.Assembly.Naming
import Wiring.Proofs.Nesting
import Wiring.Proofs.Plan.Values

/-!
# Names do not collide

Variables, functions and registries are named by a counter that runs through the whole tree of a plan,
parameters by the depth of their delegate and their position. Neither format can imitate the other,
whatever the types are called.

* `planResolution_fresh` — in the tree of a plan every name is assigned once, and none is that of a
  parameter of a body around.
* `planResolution_given_collides` — a parameter that the container was given in full keeps its name,
  which may be that of a variable.
-/

namespace Wiring

/-- In the tree of a plan made inside a container, no two steps assign one name, no step assigns the
name of a parameter of a body around some plan of the tree, and no two parameters in scope together have
one name. -/
theorem planResolution_fresh (config : Config) (trigger : Trigger) (container env : Environment)
    (hcontainer : container.isContainer = true) (hinside : container.Inside env) (isAsync : Bool)
    (target : Provider) (plan : Plan)
    (h : planResolution config trigger env isAsync target = .ok plan) :
    (assignedIn plan.tree).Nodup ∧
      (∀ around nested, plan.Within around nested →
        ∀ name ∈ (env.within around).boundNames, name ∉ assignedIn plan.tree) ∧
      ∀ inner, container.Inside inner → inner.boundNames.Nodup := by
  obtain ⟨hnodup, hgenerated⟩ := Assembly.run_named h
  refine ⟨hnodup, fun around nested _ name hname hassigned => ?_, fun inner hinner =>
    hinner.nodup_boundNames hcontainer⟩
  obtain ⟨depth, index, rfl⟩ := (hinside.within around).isParameterName hcontainer hname
  obtain ⟨n, hn⟩ := hgenerated _ hassigned
  exact Assembly.not_generated_parameterName hn

/-- A delegate in the body of another, with a parameter of the same type, around an owned value. The
types are called like parameters and functions. -/
theorem planResolution_fresh_nested :
    let a : Ty := .plain "param1"
    let b : Ty := .plain "create_"
    let k : Ty := .plain "K"
    let m : Ty := .plain "M"
    let r : Ty := .plain "R"
    let needs (tys : List Ty) : List Parameter := tys.map fun ty => ⟨"", 0, ty, false⟩
    let env := ((({} : Declarations).addConstructor (.new a []) .single { isAsync := true })
      |>.addConstructor (.new b (needs [a, k])) .dependency { disposability := .both }
      |>.addConstructor (.new m (needs [k, .delegate [k] (.owned b false) false])) .dependency
        { disposability := .sync }
      |>.addConstructor (.new r (needs [.delegate [k] m false])) .resolution {}).build
    ∃ target plan, env.lookup r = some target ∧
      planResolution {} .never env true target = .ok plan ∧
      assignedIn plan.tree = ["param1_0_2", "func_m_0_1_disposeActions", "param1_0_3", "func_m_0_1",
        "func_owned_create__1_5", "create_owned_create__8", "create__3_7", "owned_create__2_6",
        "m_1_4", "r_0_0"] ∧
      (assignedIn plan.tree).Nodup ∧
      (∀ around nested, plan.Within around nested →
        ∀ name ∈ (env.within around).boundNames, name ∉ assignedIn plan.tree) ∧
      ∀ inner, env.Inside inner → inner.boundNames.Nodup := by
  intro a b k m r needs env
  have hsummary : ((env.lookup r).bind fun target =>
      (planResolution {} .never env true target).toOption).map (fun plan => assignedIn plan.tree) =
        some ["param1_0_2", "func_m_0_1_disposeActions", "param1_0_3", "func_m_0_1",
          "func_owned_create__1_5", "create_owned_create__8", "create__3_7", "owned_create__2_6",
          "m_1_4", "r_0_0"] := by cbv
  obtain ⟨plan, hplan, hnames⟩ := Option.map_eq_some_iff.mp hsummary
  obtain ⟨target, hlookup, hok⟩ := Option.bind_eq_some_iff.mp hplan
  have hok := Run.ok_of_toOption hok
  exact ⟨target, plan, hlookup, hok, hnames,
    planResolution_fresh _ _ env env rfl .start true target plan hok⟩

/-- A parameter given in full is called like a variable, and both are used. -/
theorem planResolution_given_collides :
    let a : Ty := .plain "A"
    let b : Ty := .plain "B"
    let r : Ty := .plain "R"
    let need (ty : Ty) : Parameter := ⟨"", 0, ty, false⟩
    let env := ((({} : Declarations).addConstructor (.new a []) .dependency {})
      |>.addProvider (.parameter (need b) "a_0_1" 0)
      |>.addConstructor (.new r [need a, need b]) .resolution {}).build
    ∃ target plan, env.lookup r = some target ∧
      planResolution {} .never env false target = .ok plan ∧
      env.lookup b = some (.parameter (need b) "a_0_1" 0) ∧ "a_0_1" ∈ assignedIn plan.tree ∧
      ∃ step ∈ plan.steps, ∃ p,
        step.statement = .create "r_0_0" p [some "a_0_1", some "a_0_1"] := by
  intro a b r need env
  have hsummary : ((env.lookup r).bind fun target =>
      (planResolution {} .never env false target).toOption).map (fun plan => plan.steps.map fun s =>
        s.statement.creation?.map fun creation => (creation.1, creation.2.2)) =
      some [some ("a_0_1", []), some ("r_0_0", [some "a_0_1", some "a_0_1"])] := by cbv
  obtain ⟨plan, hplan, hsteps⟩ := Option.map_eq_some_iff.mp hsummary
  obtain ⟨target, hlookup, hok⟩ := Option.bind_eq_some_iff.mp hplan
  obtain ⟨first, _, hsteps₁, hfirst, hrest⟩ := List.map_eq_cons_iff.mp hsteps
  obtain ⟨second, _, rfl, hsecond, -⟩ := List.map_eq_cons_iff.mp hrest
  obtain ⟨⟨name, q, args⟩, hfirst, heq⟩ := Option.map_eq_some_iff.mp hfirst
  obtain ⟨rfl, rfl⟩ := Prod.mk.inj heq
  obtain ⟨⟨name, p, args⟩, hsecond, heq⟩ := Option.map_eq_some_iff.mp hsecond
  obtain ⟨rfl, rfl⟩ := Prod.mk.inj heq
  have hassigned : first.statement.assigned? = some "a_0_1" := by
    rw [Statement.eq_create hfirst]
    rfl
  exact ⟨target, plan, hlookup, Run.ok_of_toOption hok, by cbv,
    mem_assignedIn (Plan.mem_tree (by simp [hsteps₁])) hassigned, second, by simp [hsteps₁], p,
    Statement.eq_create hsecond⟩

end Wiring
