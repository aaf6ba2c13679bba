import Mathlib
import Wiring.Declarations
import Wiring.Proofs.Check.Exploration
import Wiring.Proofs.Unfolding.Consistency
import Wiring.Proofs.Unfolding.Finite

/-!
# The cycles that the check finds

A provider that leads directly to itself is reported, unless the walk came to it first from inside the
body of a delegate: there it has forgotten what it entered before the delegate, and its memory keeps
it from entering the cycle again.

* `Check.cycle_recurs` — on every cycle that goes unreported there is a provider that leads to itself
  through a delegate too.
* `Check.cycle_unreported` — such a cycle can go unreported.
-/

namespace Wiring.Check

/-- In a container whose providers of one identity are alike, where a check reports nothing, there is
on each cycle of direct dependencies below the root, between its two places of one identity or at the
second of them, a provider whose identity also leads to itself through a delegate. -/
theorem cycle_recurs (c : Settings) (env : Environment) (isAsync : Bool)
    (hrun : (run c env isAsync).error? = none) (hclean : (run c env isAsync).diagnostics = [])
    (hcoherent : Coherent (Place.atRoot env c.root isAsync).Meets) (x y : Place) (p q : Provider)
    (hx : (Place.atRoot env c.root isAsync).Leads x) (hxy : x.LeadsDirectly y)
    (hp : x.request.provider? = some p) (hq : y.request.provider? = some q)
    (hsame : p.identity = q.identity) :
    (Place.atRoot env c.root isAsync).RecursAlong x y := by
  have hwithin := Place.within_meets (Place.atRoot env c.root isAsync)
  obtain ⟨G, hgrows, hexplored, hsettled⟩ := run_explores hcoherent hwithin hrun hclean
  -- The place on the cycle resembles one that was entered, and everything entered is settled.
  obtain ⟨z, ⟨-, hxz⟩, -⟩ := Relation.TransGen.head'_iff.mp hxy
  obtain ⟨w, hw, hresembles⟩ := hgrows.resembles_of_leads hcoherent ⟨rfl, hwithin⟩ hexplored
    (Place.leadsThrough_true hx) (fun _ _ => trivial) hxz
  have hsettledx : x.Settled (Place.atRoot env c.root isAsync) :=
    (hsettled w hw).of_resembles hcoherent hresembles (hwithin.leads hx) (hgrows.belongs w hw).within
  exact Place.recursAlong_of_cycle hcoherent (.refl _) hsettledx hx (hwithin.leads hx) hxy hp hq hsame

/-- A singleton and its dependency, entered from inside a delegate first. -/
theorem cycle_recurs_shared :
    let a : Ty := .plain "A"
    let r : Ty := .plain "R"
    let t : Ty := .plain "T"
    let needs (tys : List Ty) : List Parameter := tys.map fun ty => ⟨"", 0, ty, false⟩
    let env := ((({} : Declarations).addConstructor (.new a (needs [.delegate [] t false, t]))
        .resolution {})
      |>.addConstructor (.new t (needs [a])) .single {}
      |>.addConstructor (.new r (needs [a])) .resolution {}).build
    let c : Settings := ⟨r, 16, .never, none⟩
    (run c env false).error? = none ∧ (run c env false).diagnostics = [] ∧
      ∃ x y p q, (Place.atRoot env r false).Leads x ∧ x.LeadsDirectly y ∧
        x.request.provider? = some p ∧ y.request.provider? = some q ∧ p.identity = q.identity ∧
        (Place.atRoot env r false).RecursAlong x y := by
  intro a r t needs env c
  have hconsistent : env.catalog.Consistent := .of_flat (by cbv) (by decide +kernel) rfl
  have herror : (run c env false).error? = none := by cbv
  have hclean : (run c env false).diagnostics = [] := by cbv
  have hbelow : ((Place.atRoot env r false).unfold 2).any (fun x =>
      x.identity? = some (.construct a .resolution) && (x.descend 2).any fun y =>
        y.identity? = some (.construct a .resolution)) = true := by cbv
  obtain ⟨x, hx, hcycle⟩ := List.any_eq_true.mp hbelow
  obtain ⟨hidentity, hagain⟩ := Bool.and_eq_true_iff.mp hcycle
  obtain ⟨y, p, q, hxy, hp, hq, hpa, hqa⟩ :=
    Place.cycle_of_descend 1 (of_decide_eq_true hidentity) hagain
  have hleads := Place.leads_of_mem_unfold hx
  exact ⟨herror, hclean, x, y, p, q, hleads, hxy, hp, hq, hpa.trans hqa.symm,
    cycle_recurs c env false herror hclean (hconsistent.coherent_atRoot r false) x y p q hleads hxy hp hq
      (hpa.trans hqa.symm)⟩

/-- A cycle of direct dependencies that the check does not report, in a container whose providers of
one identity are alike. -/
theorem cycle_unreported :
    let a : Ty := .plain "A"
    let t : Ty := .plain "T"
    let needs (tys : List Ty) : List Parameter := tys.map fun ty => ⟨"", 0, ty, false⟩
    let env := ((({} : Declarations).addConstructor (.new a (needs [.delegate [] t false, t]))
        .resolution {})
      |>.addConstructor (.new t (needs [a])) .single {}).build
    let c : Settings := ⟨a, 16, .never, none⟩
    Coherent (Place.atRoot env a false).Meets ∧ (run c env false).error? = none ∧
      (run c env false).diagnostics = [] ∧ ¬ (Place.atRoot env a false).IsAcyclic := by
  intro a t needs env c
  have hconsistent : env.catalog.Consistent := .of_flat (by cbv) (by decide +kernel) rfl
  refine ⟨hconsistent.coherent_atRoot a false, by cbv, by cbv, fun hacyclic => ?_⟩
  have hidentity : (Place.atRoot env a false).identity? = some (.construct a .resolution) := by cbv
  have hagain : ((Place.atRoot env a false).descend 2).any (fun y =>
      y.identity? = some (.construct a .resolution)) = true := by cbv
  obtain ⟨y, p, q, hxy, hp, hq, hpa, hqa⟩ := Place.cycle_of_descend 1 hidentity hagain
  exact hacyclic _ y p q .refl hxy hp hq (hpa.trans hqa.symm)

end Wiring.Check
