import Mathlib
import Wiring.Declarations
import Wiring.Proofs.Check.Exploration
import Wiring.Proofs.Unfolding.Consistency
import Wiring.Proofs.Unfolding.Finite

/-!
# The check is exact

A check that ends without an error reports nothing exactly when everything in the unfolding of the
root is sound: each required type has a provider, and nothing that takes waiting for is needed where
nothing can wait. The walk skips what it has seen; that this hides nothing takes that providers of
one identity are alike.

* `sound_of_run` — where nothing is reported, everything is sound.
* `Visits.silent` — where everything is sound and there are no cycles, nothing is reported.
* `Check.run_exact` — both together.
-/

namespace Wiring

namespace Check

section

variable {c : Settings} {ctx : Context}

/-! ### Nothing is made up -/

/-- Each provider since the last delegate leads directly to where the walk is. -/
def Follows (root : Place) (ctx : Context) (x : Place) : Prop :=
  ∀ identity ∈ ctx.segment, ∃ z q, root.Leads z ∧ z.request.provider? = some q ∧
    q.identity = identity ∧ z.LeadsDirectly x

theorem Follows.enter {root x y : Place} {p : Provider} (h : Follows root ctx x)
    (hroot : root.Leads x) (hp : x.request.provider? = some p) (hxy : x.Next y) :
    Follows root (ctx.enter p) y := by
  intro identity hmem
  by_cases hdelegate : p.isDelegate = true
  · rw [Context.enter_segment, if_pos hdelegate] at hmem
    cases hmem
  · have hstep : x.Passes (fun p => p.isDelegate = false) ∧ x.Next y := by
      refine ⟨fun q hq => ?_, hxy⟩
      cases hp.symm.trans hq
      simpa using hdelegate
    rw [Context.enter_segment, if_neg hdelegate] at hmem
    rcases List.mem_cons.mp hmem with rfl | hmem
    · exact ⟨x, p, hroot, hp, rfl, .single hstep⟩
    · obtain ⟨z, q, hz, hq, hidentity, hleads⟩ := h identity hmem
      exact ⟨z, q, hz, hq, hidentity, hleads.tail hstep⟩

/-- At a sound place the only fault is that the walk came from a provider of the same identity. -/
theorem cycle_of_fault {root : Place} {r : Request} {p : Provider} {kind : DiagnosticKind}
    (hfollows : Follows root ctx (ctx.place r)) (hsound : (ctx.place r).IsSound)
    (hp : r.provider? = some p) (hfault : fault? ctx p = some kind) :
    kind = .circular ∧ ∃ z q, root.Leads z ∧ z.request.provider? = some q ∧
      q.identity = p.identity ∧ z.LeadsDirectly (ctx.place r) := by
  rcases fault?_some hfault with hmem | ⟨hasync, hwaits, hdelegate⟩
  · have hcircular : fault? ctx p = some .circular := if_pos hmem
    cases hfault.symm.trans hcircular
    exact ⟨rfl, hfollows _ hmem⟩
  · rcases (Inquiry.holds_of_provider (I := inquiry) (x := ctx.place r) hp).mp hsound hasync with
      hwaits' | hdelegate'
    · cases hwaits.symm.trans hwaits'
    · cases hdelegate.symm.trans hdelegate'

/-- A sound place without a cycle has no fault. -/
theorem fault?_eq_none {root : Place} {r : Request} {p : Provider} (hacyclic : root.IsAcyclic)
    (hfollows : Follows root ctx (ctx.place r)) (hsound : (ctx.place r).IsSound)
    (hp : r.provider? = some p) : fault? ctx p = none := by
  cases hfault : fault? ctx p with
  | none => rfl
  | some kind =>
      obtain ⟨-, z, q, hz, hq, hidentity, hleads⟩ := cycle_of_fault hfollows hsound hp hfault
      exact absurd hidentity (hacyclic z _ q p hz hleads hq hp)

mutual

/-- Where everything is sound and there are no cycles, nothing is reported. -/
theorem Visits.silent {root : Place} (hacyclic : root.IsAcyclic)
    (hsound : ∀ x, root.Leads x → x.IsSound) {r : Request} {ctx : Context} {s s' : State} :
    Visits c ctx r s s' → root.Leads (ctx.place r) → Follows root ctx (ctx.place r) →
      s'.reported = s.reported
  | .optional _ _, _, _ | .repeated _ _ _, _, _ | .before _ _ _ _, _, _ => rfl
  | .inside _ _ _, _, _ => State.entering_reported _ _ _
  | .unresolved hprovider hoptional, hroot, _ => by
      have hallowed := (Inquiry.holds_of_absent (I := inquiry) (x := ctx.place r) hprovider).mp
        (hsound _ hroot)
      exact absurd (hallowed.symm.trans hoptional) (by simp)
  | .faulty hprovider hfault, hroot, hfollows => by
      rw [fault?_eq_none hacyclic hfollows (hsound _ hroot) hprovider] at hfault
      cases hfault
  | .entered (p := p) hprovider _ below, hroot, hfollows => by
      have hnext : ∀ r' ∈ (ctx.env.enter p).requests p, (ctx.place r).Next ((ctx.enter p).place r') :=
        fun r' hr' => (Context.next_iff hprovider).mpr ⟨r', hr', rfl⟩
      rw [below.silent hacyclic hsound (fun r' hr' => hroot.tail (hnext r' hr'))
        (fun r' hr' => hfollows.enter hroot hprovider (hnext r' hr')), State.entering_reported]

theorem VisitsAll.silent {root : Place} (hacyclic : root.IsAcyclic)
    (hsound : ∀ x, root.Leads x → x.IsSound) {requests : List Request} {ctx : Context}
    {s s' : State} :
    VisitsAll c ctx requests s s' → (∀ r ∈ requests, root.Leads (ctx.place r)) →
      (∀ r ∈ requests, Follows root ctx (ctx.place r)) → s'.reported = s.reported
  | .nil, _, _ => rfl
  | .cons head tail, hroot, hfollows => by
      rw [tail.silent hacyclic hsound (fun r hr => hroot r (List.mem_cons_of_mem _ hr))
        (fun r hr => hfollows r (List.mem_cons_of_mem _ hr)),
        head.silent hacyclic hsound (hroot _ List.mem_cons_self) (hfollows _ List.mem_cons_self)]

end

end

/-- A check that reports nothing has shown everything in the unfolding of the root to be sound. -/
theorem sound_of_run {c : Settings} {env : Environment} {isAsync : Bool} {among : Provider → Prop}
    (hcoherent : Coherent among) (hwithin : (Place.atRoot env c.root isAsync).Within among)
    (hrun : (run c env isAsync).error? = none) (hclean : (run c env isAsync).diagnostics = []) :
    ∀ x, (Place.atRoot env c.root isAsync).Leads x → x.IsSound := by
  obtain ⟨G, hgrows, hexplored, -⟩ := run_explores hcoherent hwithin hrun hclean
  exact fun x hx => (holds_inquiry x).mp
    (hgrows.holds_of_leads hcoherent ⟨rfl, hwithin⟩ hexplored (Place.leadsThrough_true hx))

/-- In a container whose providers of one identity are alike, and in which nothing leads directly to
itself, a check that ends without an error reports nothing exactly when everything in the unfolding
of the root is sound. -/
theorem run_exact (c : Settings) (env : Environment) (isAsync : Bool)
    (hrun : (run c env isAsync).error? = none)
    (hcoherent : Coherent (Place.atRoot env c.root isAsync).Meets)
    (hacyclic : (Place.atRoot env c.root isAsync).IsAcyclic) :
    (run c env isAsync).diagnostics = [] ↔
      ∀ x, (Place.atRoot env c.root isAsync).Leads x → x.IsSound := by
  constructor
  · exact sound_of_run hcoherent (Place.within_meets _) hrun
  · intro hsound
    obtain ⟨s, hvisits, hreported⟩ := run_sound hrun
    rw [hreported]
    exact hvisits.silent hacyclic hsound .refl fun _ hmem => by cases hmem

/-- A root that needs a suspending singleton, and where nothing can wait. -/
theorem run_exact_suspending :
    let a : Ty := .plain "A"
    let b : Ty := .plain "B"
    let r : Ty := .plain "R"
    let needs (tys : List Ty) : List Parameter := tys.map fun ty => ⟨"", 0, ty, false⟩
    let env := ((({} : Declarations).addConstructor (.new a []) .single { isAsync := true })
      |>.addConstructor (.new b (needs [a])) .resolution {}
      |>.addConstructor (.new r (needs [.delegate [] b true, a])) .resolution {}).build
    let c : Settings := ⟨r, 16, .never, none⟩
    (run c env false).diagnostics = [⟨.requiresAsync, r, a, 0, none⟩] ∧
      ((run c env false).diagnostics = [] ↔
        ∀ x, (Place.atRoot env c.root false).Leads x → x.IsSound) := by
  intro a b r needs env c
  have hconsistent : env.catalog.Consistent := .of_flat (by cbv) (by decide +kernel) rfl
  exact ⟨by cbv, run_exact c env false (by cbv) (hconsistent.coherent_atRoot r false)
    (.of_unfold 8 (by cbv) (by cbv))⟩

/-- Two providers of one identity that are not alike: the second counts as entered when the first
was, and what it misses goes unreported. -/
theorem run_inexact :
    let f : Ty := .plain "F"
    let m : Ty := .plain "M"
    let r : Ty := .plain "R"
    let ia : Ty := .plain "IA"
    let ib : Ty := .plain "IB"
    let needs (tys : List Ty) : List Parameter := tys.map fun ty => ⟨"", 0, ty, false⟩
    let env := ((({} : Declarations).addConstructor (.new f []) .dependency { exposedAs := [ia] })
      |>.addConstructor (.new f (needs [m])) .dependency { exposedAs := [ib] }
      |>.addConstructor (.new r (needs [ia, ib])) .resolution {}).build
    let c : Settings := ⟨r, 16, .never, none⟩
    (Place.atRoot env r false).IsAcyclic ∧ (run c env false).error? = none ∧
      (run c env false).diagnostics = [] ∧
      ∃ x, (Place.atRoot env r false).Leads x ∧ ¬ x.IsSound := by
  intro f m r ia ib needs env c
  refine ⟨.of_unfold 8 (by cbv) (by cbv), by cbv, by cbv, ?_⟩
  have hunsound : ((Place.atRoot env r false).unfold 8).any (fun x => !decide x.IsSound) = true := by
    cbv
  obtain ⟨x, hx, hxunsound⟩ := List.any_eq_true.mp hunsound
  exact ⟨x, Place.leads_of_mem_unfold hx, by simpa using hxunsound⟩

end Check

end Wiring
