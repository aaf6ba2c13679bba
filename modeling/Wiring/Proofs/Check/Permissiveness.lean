import Mathlib
import Wiring.Declarations
import Wiring.Proofs.Check.Reports
import Wiring.Proofs.Unfolding.Finite

/-!
# What may wait may do more

Where waiting is possible at the root it is possible at every place where it would be otherwise, and
at more of them; what is requested there is the same. So whatever is wrong below a root that may
wait is wrong below the root that may not, and a check that reports nothing for the latter has looked
at all of it. The two checks remember different things, though, and some cycles go unreported: what
the second check can still report is one of those.

* `Place.LeadsThrough.weaken`, `Place.LeadsDirectly.weaken` — the same way down with less waiting.
* `settled_of_run` — a check that reports nothing has settled every place below its root.
* `Check.async_permits` — after a check without waiting that reports nothing, a check with waiting
  reports nothing but cycles that recur.
* `Check.async_refuses` — such a cycle can be reported.
-/

namespace Wiring

/-- Where waiting becomes possible inside a provider, it is with more waiting around. -/
theorem Provider.waits_mono (p : Provider) {isAsync more : Bool} (h : isAsync = true → more = true) :
    p.waits isAsync = true → p.waits more = true := by
  rw [waits_eq, waits_eq]
  split
  · exact id
  · exact h

namespace Place

variable {passes : Provider → Prop} {x y : Place} {isAsync : Bool}

/-- The way down from a place can be gone with less waiting, too. -/
theorem LeadsThrough.weaken (h : x.LeadsThrough passes y) (isAsync : Bool)
    (hless : isAsync = true → x.isAsync = true) :
    ∃ less, (less = true → y.isAsync = true) ∧
      LeadsThrough passes { x with isAsync } { y with isAsync := less } := by
  induction h with
  | refl => exact ⟨isAsync, hless, .refl⟩
  | tail _ hstep ih =>
      obtain ⟨less, hle, hleads⟩ := ih
      obtain ⟨hpass, hnext⟩ := hstep
      obtain @⟨p, r, hprovider, hr⟩ := hnext
      exact ⟨p.waits less, p.waits_mono hle, hleads.tail ⟨hpass, .intro hprovider hr⟩⟩

theorem LeadsDirectly.weaken (h : x.LeadsDirectly y) (isAsync : Bool)
    (hless : isAsync = true → x.isAsync = true) :
    ∃ less, LeadsDirectly { x with isAsync } { y with isAsync := less } := by
  obtain ⟨z, hxz, hpass, hnext⟩ := Relation.TransGen.tail'_iff.mp h
  obtain ⟨less, -, hleads⟩ := LeadsThrough.weaken hxz isAsync hless
  obtain @⟨p, r, hprovider, hr⟩ := hnext
  exact ⟨p.waits less, .tail' hleads ⟨hpass, .intro hprovider hr⟩⟩

/-- A place that is sound with less waiting is sound. -/
theorem IsSound.of_weakened (h : IsSound { x with isAsync })
    (hless : isAsync = true → x.isAsync = true) : x.IsSound := by
  unfold IsSound at h ⊢
  cases hp : x.request.provider? with
  | none => simpa [hp] using h
  | some p =>
      simp only [hp] at h ⊢
      exact fun hasync => (h hasync).imp_left hless

end Place

namespace Check

variable {c : Settings} {env : Environment} {isAsync : Bool}

/-- A check that reports nothing has settled every place that leads on below its root. -/
theorem settled_of_run {x z : Place} {among : Provider → Prop} (hcoherent : Coherent among)
    (hwithin : (Place.atRoot env c.root isAsync).Within among)
    (hrun : (run c env isAsync).error? = none) (hclean : (run c env isAsync).diagnostics = [])
    (hx : (Place.atRoot env c.root isAsync).Leads x) (hxz : x.Next z) :
    x.Settled (Place.atRoot env c.root isAsync) := by
  obtain ⟨G, hgrows, hexplored, hsettled⟩ := run_explores hcoherent hwithin hrun hclean
  obtain ⟨w, hw, hresembles⟩ := hgrows.resembles_of_leads hcoherent ⟨rfl, hwithin⟩ hexplored
    (Place.leadsThrough_true hx) (fun _ _ => trivial) hxz
  exact (hsettled w hw).of_resembles hcoherent hresembles (hwithin.leads hx)
    (hgrows.belongs w hw).within

/-- In a container whose providers of one identity are alike, where the check of a root reports
nothing without waiting, all that a check of the same root with waiting reports are cycles of direct
dependencies below it, and on each of them, between its two places of one identity or at the second of
them, stands a provider whose identity also leads to itself through a delegate. So it reports nothing
where no such cycle is. -/
theorem async_permits (c c' : Settings) (env : Environment) (hroot : c'.root = c.root)
    (hrun : (run c env false).error? = none) (hclean : (run c env false).diagnostics = [])
    (hcoherent : Coherent (Place.atRoot env c.root false).Meets) (d : Diagnostic)
    (hd : d ∈ (run c' env true).diagnostics) :
    d.kind = .circular ∧ ∃ x y p q, (Place.atRoot env c.root false).Leads x ∧ x.LeadsDirectly y ∧
      x.request.provider? = some p ∧ y.request.provider? = some q ∧ p.identity = q.identity ∧
      d.offending = q.ty ∧ (Place.atRoot env c.root false).RecursAlong x y := by
  have hwithin := Place.within_meets (Place.atRoot env c.root false)
  obtain ⟨ctx, r, hleads, hfollows, hfaults⟩ := run_founded hd
  rw [hroot] at hleads hfollows
  -- Whatever the report is about is below the root without waiting, too, and is sound there.
  have hdown {x : Place} (hx : (Place.atRoot env c.root true).Leads x) :
      ∃ less, (less = true → x.isAsync = true) ∧
        (Place.atRoot env c.root false).Leads { x with isAsync := less } := by
    obtain ⟨less, hless, hx'⟩ := (Place.leadsThrough_true hx).weaken false (by simp)
    exact ⟨less, hless, hx'.leads⟩
  have hsound : (ctx.place r).IsSound := by
    obtain ⟨less, hless, hbelow⟩ := hdown hleads
    exact (sound_of_run hcoherent hwithin hrun hclean _ hbelow).of_weakened hless
  -- Without waiting a required dependency is missing just as well, and a singleton that suspends is no
  -- fault where it can be waited for: a cycle is all that is left.
  cases hfaults with
  | absent hprovider hrequired =>
      have hallowed := (Inquiry.holds_of_absent (I := inquiry) (x := ctx.place r) hprovider).mp hsound
      exact absurd (hallowed.symm.trans hrequired) (by simp)
  | @faulty q kind hq hfault =>
      obtain ⟨rfl, x, p, hx, hp, hsame, hxy⟩ := cycle_of_fault hfollows hsound hq hfault
      obtain ⟨less, hless, hbelow⟩ := hdown hx
      obtain ⟨less', hcycle⟩ := hxy.weaken less hless
      -- The cycle is in the unfolding without waiting, where everything is settled.
      obtain ⟨z, ⟨-, hnext⟩, -⟩ := Relation.TransGen.head'_iff.mp hcycle
      have hsettled := settled_of_run hcoherent hwithin hrun hclean hbelow hnext
      exact ⟨rfl, _, _, p, q, hbelow, hcycle, hp, hq, hsame, rfl,
        Place.recursAlong_of_cycle hcoherent (.refl _) hsettled hbelow (hwithin.leads hbelow) hcycle
          hp hq hsame⟩

/-- A singleton and its dependency, which the check without waiting enters from inside a delegate
first. -/
theorem async_permits_shared :
    let a : Ty := .plain "A"
    let t : Ty := .plain "T"
    let needs (tys : List Ty) : List Parameter := tys.map fun ty => ⟨"", 0, ty, false⟩
    let env := ((({} : Declarations).addConstructor (.new a (needs [.delegate [] t false, t]))
        .resolution {})
      |>.addConstructor (.new t (needs [a])) .single {}).build
    let c : Settings := ⟨a, 16, .never, none⟩
    let d : Diagnostic := ⟨.circular, a, t, 0, none⟩
    (run c env false).error? = none ∧ (run c env false).diagnostics = [] ∧
      d ∈ (run c env true).diagnostics ∧
      ∃ x y p q, (Place.atRoot env a false).Leads x ∧ x.LeadsDirectly y ∧
        x.request.provider? = some p ∧ y.request.provider? = some q ∧ p.identity = q.identity ∧
        d.offending = q.ty ∧ (Place.atRoot env a false).RecursAlong x y := by
  intro a t needs env c d
  have hconsistent : env.catalog.Consistent := .of_flat (by cbv) (by decide +kernel) rfl
  have herror : (run c env false).error? = none := by cbv
  have hclean : (run c env false).diagnostics = [] := by cbv
  have hreported : (run c env true).diagnostics = [d, { d with offending := a }] := by cbv
  have hd : d ∈ (run c env true).diagnostics := hreported ▸ List.mem_cons_self
  exact ⟨herror, hclean, hd, (async_permits c c env rfl herror hclean
    (hconsistent.coherent_atRoot a false) d hd).2⟩

/-- With waiting a check can report a cycle that goes unreported without. -/
theorem async_refuses :
    let a : Ty := .plain "A"
    let t : Ty := .plain "T"
    let needs (tys : List Ty) : List Parameter := tys.map fun ty => ⟨"", 0, ty, false⟩
    let env := ((({} : Declarations).addConstructor (.new a (needs [.delegate [] t false, t]))
        .resolution {})
      |>.addConstructor (.new t (needs [a])) .single {}).build
    let c : Settings := ⟨a, 16, .never, none⟩
    Coherent (Place.atRoot env a false).Meets ∧
      (run c env false).error? = none ∧ (run c env false).diagnostics = [] ∧
      (run c env true).error? = none ∧
      (run c env true).diagnostics =
        [⟨.circular, a, t, 0, none⟩, ⟨.circular, a, a, 0, none⟩] := by
  intro a t needs env c
  have hconsistent : env.catalog.Consistent := .of_flat (by cbv) (by decide +kernel) rfl
  exact ⟨hconsistent.coherent_atRoot a false, by cbv, by cbv, by cbv, by cbv⟩

end Check

end Wiring
