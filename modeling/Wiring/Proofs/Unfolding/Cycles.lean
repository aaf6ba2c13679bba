import Wiring.Proofs.Unfolding.Basic

/-!
# Cycles in the unfolding

A provider that leads directly to one of its own identity does so again from there, without end. So
where every chain of direct dependencies ends there is no such cycle. What a walk shows is less: the
chains end that meet no identity which recurs, that is, which leads to itself through a delegate.

* `Place.LeadsAcross`, `Place.Recurs` — dependencies through the body of a delegate, and identities
  that come back that way.
* `Place.RecursAlong` — such an identity stands on the way from one place to another.
* `Place.Settled` — below a place, chains of direct dependencies end, save for those that meet an
  identity which recurs.
* `Place.recursAlong_of_cycle` — on a cycle through a settled place something recurs.
-/

namespace Wiring.Place

/-- What a place leads to through the body of a delegate. -/
def LeadsAcross (x y : Place) : Prop :=
  ∃ d z p, x.Leads d ∧ d.request.provider? = some p ∧ p.isDelegate = true ∧ d.Next z ∧ z.Leads y

theorem LeadsAcross.tail {x y z : Place} (h : x.LeadsAcross y) (hyz : y.Next z) :
    x.LeadsAcross z := by
  obtain ⟨d, w, p, hxd, hp, hdelegate, hdw, hwy⟩ := h
  exact ⟨d, w, p, hxd, hp, hdelegate, hdw, hwy.tail hyz⟩

/-- Somewhere below the root a provider of this identity leads to one of the same identity through
the body of a delegate. -/
def Recurs (root : Place) (identity : Provider.Identity) : Prop :=
  ∃ x y p q, root.Leads x ∧ x.LeadsAcross y ∧ x.request.provider? = some p ∧
    y.request.provider? = some q ∧ p.identity = identity ∧ q.identity = identity

/-- Something recurs on the way from one place down to another that comes after it: at the second of
them or between the two. Where both are of one identity the way is a cycle, and what recurs is on
it. -/
def RecursAlong (root x y : Place) : Prop :=
  ∃ z r, x.LeadsDirectly z ∧ z.LeadsThrough (fun p => p.isDelegate = false) y ∧
    z.request.provider? = some r ∧ root.Recurs r.identity

/-- One step further down a chain of direct dependencies, to nothing that recurs. -/
def Descends (root y x : Place) : Prop :=
  (x.Passes (fun p => p.isDelegate = false) ∧ x.Next y) ∧
    ∀ q, y.request.provider? = some q → ¬ root.Recurs q.identity

/-- Unless the place itself recurs, every chain down from it ends. -/
def Settled (x root : Place) : Prop :=
  (∀ p, x.request.provider? = some p → ¬ root.Recurs p.identity) → Acc root.Descends x

section

variable {tracked : Bool} {among : Provider → Prop} {root x x' y w : Place} {p q : Provider}

/-- A place is settled when all its dependencies are. -/
theorem Settled.of_next (h : ∀ y, x.Next y → y.Settled root) : x.Settled root :=
  fun _ => .intro x fun y hy => h y hy.1.2 hy.2

theorem Settled.of_recurs (hp : x.request.provider? = some p) (h : root.Recurs p.identity) :
    x.Settled root :=
  fun hnot => absurd h (hnot p hp)

/-- A delegate is settled: what is in its body is no direct dependency. -/
theorem Settled.of_delegate (hp : x.request.provider? = some p) (hdelegate : p.isDelegate = true) :
    x.Settled root :=
  fun _ => .intro x fun _ hy => absurd ((hy.1.1 p hp).symm.trans hdelegate) (by simp)

theorem Settled.of_absent (h : x.request.provider? = none) : x.Settled root :=
  .of_next fun y hy => by
    obtain ⟨hprovider, -⟩ := hy
    cases h.symm.trans hprovider

/-- Chains end below a place that resembles one below which they end. -/
theorem acc_of_resembles (hcoherent : Coherent among) (h : Acc root.Descends w)
    (hxw : x.Resembles tracked w) (hx : x.Within among) (hw : w.Within among) :
    Acc root.Descends x := by
  induction h generalizing x with
  | intro w _ ih =>
      refine .intro x fun y hy => ?_
      obtain ⟨⟨hpass, hnext⟩, hnot⟩ := hy
      obtain ⟨y', hnext', hmirrors⟩ := hxw.next hcoherent hx hw hnext
      -- What is below `x` resembles something below `w`, with the same identities, so it descends as
      -- that does.
      refine Acc.intro y fun z hz => ?_
      -- Only a provider that is no parameter leads on from `y`.
      obtain ⟨q, hq⟩ : ∃ q, y.request.provider? = some q := by
        obtain ⟨hprovider, -⟩ := hz.1.2
        exact ⟨_, hprovider⟩
      have hparameter := hz.1.2.not_parameter hq
      have hy := hx.next hnext
      have hy' := hw.next hnext'
      obtain ⟨q', hq', halike⟩ := hmirrors.alike hcoherent hy hy' hq hparameter
      have hdescends : root.Descends y' w := by
        refine ⟨⟨fun r hr => ?_, hnext'⟩, fun r hr => ?_⟩
        · obtain ⟨p, r', hp, hr', hidentity, -⟩ := hxw
          cases hr.symm.trans hr'
          rw [← Provider.isDelegate_identity, ← hidentity, Provider.isDelegate_identity]
          exact hpass p hp
        · cases hr.symm.trans hq'
          rw [← halike.identity]
          exact hnot q hq
      exact (ih y' hdescends (hmirrors.resembles hcoherent hy hy' hq hparameter) hy hy').inv hz

/-- What resembles a settled place is settled. -/
theorem Settled.of_resembles (hcoherent : Coherent among) (h : w.Settled root)
    (hxw : x.Resembles tracked w) (hx : x.Within among) (hw : w.Within among) :
    x.Settled root := by
  intro hnot
  refine acc_of_resembles hcoherent (h fun q hq => ?_) hxw hx hw
  obtain ⟨p, q', hp, hq', hidentity, -⟩ := hxw
  cases hq.symm.trans hq'
  rw [← hidentity]
  exact hnot p hp

/-! ### Around a cycle -/

/-- Dependencies other than those of a delegate find nothing that the place does not find, save for
parameters. -/
theorem covers_next (h : x.env.Covers x.env.root) (hpass : x.Passes fun p => p.isDelegate = false)
    (hxy : x.Next y) : x.env.Covers y.env := by
  obtain ⟨hp, -⟩ := hxy
  rename_i p r
  have hdelegate := hpass p hp
  change x.env.Covers (x.env.enter p)
  unfold Environment.enter
  split
  · cases hdelegate
  · refine ⟨rfl, fun ty => .inl ?_⟩
    rw [Environment.lookup_push]
    rfl
  · split
    · exact h
    · exact .refl _

/-- Below the container itself, everything not found there is a parameter. -/
theorem covers_root (h : root.Leads x) (hroot : root.env.Covers root.env.root) :
    x.env.Covers x.env.root := by
  induction h with
  | refl => exact hroot
  | @tail b c _ hstep ih =>
      obtain ⟨hp, -⟩ := hstep
      rename_i p r
      change (b.env.enter p).Covers (b.env.enter p).root
      by_cases hsingle : p.lifetime = .single
      · rw [Environment.enter_of_single _ hsingle]
        exact .refl _
      · have hcatalog : (b.env.enter p).root = b.env.root := by
          rw [Environment.root, Environment.root, Environment.catalog_enter]
        rw [hcatalog]
        exact ih.deeper hsingle

theorem LeadsDirectly.covers (h : x.LeadsDirectly y) (hx : root.Leads x)
    (hroot : root.env.Covers root.env.root) : x.env.Covers y.env := by
  induction h with
  | single hstep => exact covers_next (covers_root hx hroot) hstep.1 hstep.2
  | @tail b c hxb hstep ih =>
      have hrootCovers := covers_root (hx.trans (LeadsDirectly.leads hxb)) hroot
      exact ih.trans (covers_next hrootCovers hstep.1 hstep.2)

/-- A cycle can be gone on with from where it closes: the place there takes the step that the cycle
began with, to a place of the same identity. -/
theorem turn (hcoherent : Coherent among) (hroot : root.env.Covers root.env.root)
    (hx : root.Leads x) (hwithin : x.Within among)
    (hstep : x.Passes (fun p => p.isDelegate = false) ∧ x.Next x')
    (hrest : x'.LeadsThrough (fun p => p.isDelegate = false) y)
    (hp : x.request.provider? = some p) (hq : y.request.provider? = some q)
    (hsame : p.identity = q.identity) :
    ∃ y' p' q', (y.Passes (fun p => p.isDelegate = false) ∧ y.Next y') ∧
      x'.request.provider? = some p' ∧ y'.request.provider? = some q' ∧
      p'.identity = q'.identity := by
  have hxy : x.LeadsDirectly y := .head' hstep hrest
  have hy : y.Within among := hwithin.leads hxy.leads
  have halike := hcoherent p q (hwithin.provider hp) (hy.provider hq) hsame
  have hcovers := hxy.covers hx hroot
  -- The end of the cycle resembles its beginning, further down: whatever leads on from the one leads on
  -- from the other.
  have hresembles : x.Resembles false y :=
    ⟨p, q, hp, hq, hsame, fun hfalse => (by cases hfalse), halike.enter x.env ▸ hcovers.enter q⟩
  obtain ⟨y', hnext', hmirrors⟩ := hresembles.next hcoherent hwithin hy hstep.2
  have hpass : y.Passes fun p => p.isDelegate = false := by
    intro r hr
    cases hq.symm.trans hr
    rw [← halike.isDelegate]
    exact hstep.1 p hp
  -- The cycle leads on from `x'`, so what is there is no parameter and `y'` cannot be one either.
  obtain ⟨w, hw⟩ : ∃ w, x'.Next w := by
    obtain ⟨w, hw, -⟩ := Relation.TransGen.head'_iff.mp (.tail' hrest ⟨hpass, hnext'⟩)
    exact ⟨w, hw.2⟩
  obtain ⟨p', hp'⟩ : ∃ p', x'.request.provider? = some p' := by
    obtain ⟨hprovider, -⟩ := hw
    exact ⟨_, hprovider⟩
  obtain ⟨q', hq', halike'⟩ := hmirrors.alike hcoherent (hwithin.next hstep.2) (hy.next hnext') hp'
    (hw.not_parameter hp')
  exact ⟨y', p', q', ⟨hpass, hnext'⟩, hp', hq', halike'.identity⟩

/-- Where chains end that meet nothing that recurs, none of them is a cycle. -/
theorem not_cycle_of_acc (hcoherent : Coherent among) (hroot : root.env.Covers root.env.root)
    (hacc : Acc root.Descends x) (hx : root.Leads x) (hwithin : x.Within among)
    (hxy : Relation.TransGen (fun a b => root.Descends b a) x y)
    (hp : x.request.provider? = some p) (hq : y.request.provider? = some q) :
    p.identity ≠ q.identity := by
  intro hsame
  -- A chain that ended on the cycle would end no sooner one step further round.
  induction hacc generalizing y p q with
  | intro x _ ih =>
      obtain ⟨x', hdescends, hrest⟩ := Relation.TransGen.head'_iff.mp hxy
      have hleads : x'.LeadsThrough (fun p => p.isDelegate = false) y :=
        Relation.ReflTransGen.mono (fun _ _ h => h.1) _ _ hrest
      obtain ⟨y', p', q', hstep, hp', hq', hsame'⟩ :=
        turn hcoherent hroot hx hwithin hdescends.1 hleads hp hq hsame
      have hturned : root.Descends y' y := by
        refine ⟨hstep, fun r hr => ?_⟩
        cases hq'.symm.trans hr
        rw [← hsame']
        exact hdescends.2 p' hp'
      exact ih x' hdescends (hx.tail hdescends.1.2) (hwithin.next hdescends.1.2)
        (.tail' hrest hturned) hp' hq' hsame'

/-- What a chain of direct dependencies passes lies between its ends. -/
theorem LeadsDirectly.between (h : x.LeadsDirectly y) :
    Relation.TransGen (fun a b => (a.Passes (fun p => p.isDelegate = false) ∧ a.Next b) ∧
      x.LeadsDirectly b ∧ b.LeadsThrough (fun p => p.isDelegate = false) y) x y := by
  induction h with
  | single hstep => exact .single ⟨hstep, .single hstep, .refl⟩
  | @tail b c hxb hstep ih =>
      have hlonger := Relation.TransGen.mono (fun _ _ hbetween =>
        And.imp_right (And.imp_right fun hrest => hrest.tail hstep) hbetween) _ _ ih
      exact .tail hlonger ⟨hstep, hxb.tail hstep, .refl⟩

/-- On a cycle through a settled place something recurs. -/
theorem recursAlong_of_cycle (hcoherent : Coherent among) (hroot : root.env.Covers root.env.root)
    (hsettled : x.Settled root) (hx : root.Leads x) (hwithin : x.Within among)
    (hxy : x.LeadsDirectly y) (hp : x.request.provider? = some p)
    (hq : y.request.provider? = some q) (hsame : p.identity = q.identity) :
    root.RecursAlong x y := by
  by_contra hnone
  have hacc : Acc root.Descends x := by
    refine hsettled fun r hr hrecurs => hnone ⟨y, q, hxy, .refl, hq, ?_⟩
    cases hp.symm.trans hr
    exact hsame ▸ hrecurs
  have hcycle : Relation.TransGen (fun a b => root.Descends b a) x y :=
    Relation.TransGen.mono (fun _ b ⟨hstep, hxb, hby⟩ =>
      ⟨hstep, fun r hr hrecurs => hnone ⟨b, r, hxb, hby, hr, hrecurs⟩⟩) _ _ hxy.between
  exact not_cycle_of_acc hcoherent hroot hacc hx hwithin hcycle hp hq hsame

end

end Wiring.Place
