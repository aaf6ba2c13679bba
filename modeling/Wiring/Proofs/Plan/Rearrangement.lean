import Mathlib.Data.List.Perm.Basic
import Wiring.Plan.Basic

/-!
# Plans that differ in order only

One plan rearranges another if it has the same target and the same steps in some order, where the
same goes for the plans of the bodies that the steps hold.

* `Statement.Rearranges`, `Step.Rearranges`, `Plan.Rearranges` — the relation, down the whole tree.
* `Plan.Rearranges.releases` — what is released is the same.
-/

namespace Wiring

mutual

/-- Two statements differ at most in the order of the steps in a body. -/
inductive Statement.Rearranges : Statement → Statement → Prop
  | plain {statement : Statement} (hbody : statement.body? = none) :
      Statement.Rearranges statement statement
  | delegate {name registry : String} {p : Provider} {body body' : Plan}
      (hbody : Plan.Rearranges body body') :
      Statement.Rearranges (.delegate name p body registry) (.delegate name p body' registry)
  | ownedFunction {function : String} {p : Provider} {isAsync : Bool} {body body' : Plan}
      (hbody : Plan.Rearranges body body') :
      Statement.Rearranges (.ownedFunction function p isAsync body)
        (.ownedFunction function p isAsync body')

/-- Two steps have one number and one release, need steps of the same numbers, and execute the same
up to the order of the steps in a body. -/
inductive Step.Rearranges : Step → Step → Prop
  | step {id : Nat} {statement statement' : Statement} {release : Option Release}
      {needs needs' : List Step} {releasable : Bool}
      (hstatement : Statement.Rearranges statement statement')
      (hneeds : needs.map Step.id = needs'.map Step.id) :
      Step.Rearranges ⟨id, statement, release, needs, releasable⟩
        ⟨id, statement', release, needs', releasable⟩

/-- Two plans have one target, and the steps of one correspond to those of the other in some
order. -/
inductive Plan.Rearranges : Plan → Plan → Prop
  | plan {steps paired steps' : List Step} {target : String}
      (hpaired : List.Forall₂ Step.Rearranges steps paired) (hperm : paired.Perm steps') :
      Plan.Rearranges ⟨steps, target⟩ ⟨steps', target⟩

end

theorem Step.Rearranges.id_eq {step step' : Step} (h : step.Rearranges step') : step.id = step'.id := by
  cases h
  rfl

theorem Step.Rearranges.release_eq {step step' : Step} (h : step.Rearranges step') :
    step.release = step'.release := by
  cases h
  rfl

theorem Step.Rearranges.ids_singleton {step step' : Step} (h : step.Rearranges step') :
    [step].map Step.id = [step'].map Step.id := by
  simp only [List.map_cons, List.map_nil, h.id_eq]

/-- Steps that correspond make up plans that do, in whatever order they are put. -/
theorem Plan.Rearranges.of_perm {steps paired arranged arranged' : List Step}
    (h : List.Forall₂ Step.Rearranges steps paired) (hperm : arranged.Perm steps)
    (hperm' : arranged'.Perm paired) (target : String) :
    Plan.Rearranges ⟨arranged, target⟩ ⟨arranged', target⟩ := by
  obtain ⟨between, hpaired, hbetween⟩ := List.perm_comp_forall₂ hperm h
  exact .plan hpaired (hbetween.trans hperm'.symm)

/-- Steps that correspond have the same releases. -/
theorem Step.Rearranges.releases {steps paired : List Step}
    (h : List.Forall₂ Step.Rearranges steps paired) :
    steps.filterMap Step.release = paired.filterMap Step.release := by
  induction h with
  | nil => rfl
  | cons hstep _ ih => simp only [List.filterMap_cons, hstep.release_eq, ih]

/-- What the steps of one plan release, the steps of the other release in some order. -/
theorem Plan.Rearranges.releases {plan plan' : Plan} (h : plan.Rearranges plan') :
    (plan.steps.filterMap Step.release).Perm (plan'.steps.filterMap Step.release) := by
  cases h with
  | plan hpaired hperm =>
      rw [Step.Rearranges.releases hpaired]
      exact hperm.filterMap _

end Wiring
