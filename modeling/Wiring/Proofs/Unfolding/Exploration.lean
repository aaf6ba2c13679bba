import Wiring.Proofs.Unfolding.Basic

/-!
# Walks with a memory

A walk through the unfolding enters some places and passes over others: those whose provider it has
entered at the container before, and delegates met in their own body. This module says why nothing is
missed. A place passed over resembles one entered, so what is below it mirrors what was seen.

* `Inquiry` — what a walk looks for at each place and where it goes on.
* `Inquiry.Explored` — a place was looked at, and if the walk goes on there, a place that it
  resembles was entered.
* `Inquiry.holds_of_leads` — where everything below the places entered is explored, what was looked
  for holds in the whole unfolding.
* `Noted`, `Deferred` — what the two memories of a walk stand for.
* `Inquiry.Grows` — how the places entered grow along a walk.
-/

namespace Wiring

/-- What a walk looks for at each place, and below which providers it goes on. -/
structure Inquiry where
  /-- Whether it matters if waiting is possible. -/
  tracked : Bool
  /-- Which requests may go without a provider; optional or not is told. -/
  allowsAbsent : Bool → Prop
  /-- Which providers may be found, where waiting is possible or not. -/
  admits : Bool → Provider → Prop
  /-- Below which providers the walk goes on. -/
  passes : Provider → Prop
  admits_parameter : ∀ isAsync p, p.IsParameter → admits isAsync p
  admits_alike : ∀ p q isAsync isAsync', p.Alike q → (tracked = true → isAsync = isAsync') →
    admits isAsync' q → admits isAsync p
  passes_alike : Place.Agrees passes

namespace Inquiry

variable {I : Inquiry} {catalog : Catalog} {among : Provider → Prop} {G G' G'' : Place → Prop}
  {x y z : Place} {p : Provider}

/-- What the walk looks for is the case at a place. -/
def Holds (I : Inquiry) (x : Place) : Prop :=
  match x.request.provider? with
  | none => I.allowsAbsent x.request.optional
  | some p => I.admits x.isAsync p

theorem holds_of_provider (hp : x.request.provider? = some p) :
    I.Holds x ↔ I.admits x.isAsync p := by
  unfold Holds
  rw [hp]

theorem holds_of_absent (hp : x.request.provider? = none) :
    I.Holds x ↔ I.allowsAbsent x.request.optional := by
  unfold Holds
  rw [hp]

/-- The inquiry that looks for nothing and goes on everywhere. -/
def everywhere : Inquiry where
  tracked := false
  allowsAbsent _ := True
  admits _ _ := True
  passes _ := True
  admits_parameter _ _ _ := trivial
  admits_alike _ _ _ _ _ _ _ := trivial
  passes_alike _ _ _ _ := trivial

theorem holds_everywhere (x : Place) : everywhere.Holds x := by
  unfold Holds
  split <;> trivial

/-- What holds at a place holds at every place that mirrors it. -/
theorem Holds.of_mirrors (hcoherent : Coherent among) (h : I.Holds y) (hxy : x.Mirrors I.tracked y)
    (hx : x.Within among) (hy : y.Within among) : I.Holds x := by
  cases hp : x.request.provider? with
  | none =>
      have hq : y.request.provider? = none := by simpa [hp, eq_comm] using hxy.provider
      rw [holds_of_absent hp, hxy.optional]
      exact (holds_of_absent hq).mp h
  | some p =>
      rw [holds_of_provider hp]
      by_cases hparameter : p.IsParameter
      · exact I.admits_parameter _ p hparameter
      · obtain ⟨q, hq, halike⟩ := hxy.alike hcoherent hx hy hp hparameter
        exact I.admits_alike p q _ _ halike hxy.isAsync ((holds_of_provider hq).mp h)

/-- A place was looked at, and if the walk goes on below it, a place that it resembles is entered. -/
def Explored (I : Inquiry) (G : Place → Prop) (x : Place) : Prop :=
  I.Holds x ∧ ∀ p, x.request.provider? = some p → I.passes p → ∃ w, G w ∧ x.Resembles I.tracked w

theorem Explored.mono (h : I.Explored G x) (hle : ∀ w, G w → G' w) : I.Explored G' x :=
  ⟨h.1, fun p hp hpasses =>
    let ⟨w, hw, hresembles⟩ := h.2 p hp hpasses
    ⟨w, hle w hw, hresembles⟩⟩

/-- Where everything below the places entered is explored, each place that the walk goes on to mirrors
one explored. The induction follows the unfolding. -/
theorem mirrors_of_leads (hcoherent : Coherent among) (hwithin : ∀ w, G w → w.Within among)
    (hclosed : ∀ w, G w → ∀ y, w.Next y → I.Explored G y) (hx : I.Explored G x)
    (hxwithin : x.Within among) (hleads : x.LeadsThrough I.passes z) :
    ∃ y, I.Explored G y ∧ y.Within among ∧ z.Mirrors I.tracked y := by
  induction hleads with
  | refl => exact ⟨x, hx, hxwithin, .refl x⟩
  | @tail b c hxb hstep ih =>
      obtain ⟨y, hy, hywithin, hby⟩ := ih
      obtain ⟨hpass, hnext⟩ := hstep
      have hb : b.Within among := hxwithin.leads (Place.LeadsThrough.leads hxb)
      obtain ⟨p, hp⟩ : ∃ p, b.request.provider? = some p := by
        cases hnext with
        | intro hprovider _ => exact ⟨_, hprovider⟩
      have hparameter := hnext.not_parameter hp
      -- `b` mirrors `y`, which resembles some `w` entered: the next place is mirrored below `w`.
      obtain ⟨q, hq, halike⟩ := hby.alike hcoherent hb hywithin hp hparameter
      obtain ⟨w, hw, hyw⟩ := hy.2 q hq (I.passes_alike p q halike (hpass p hp))
      have hbw := (hby.resembles hcoherent hb hywithin hp hparameter).trans hyw
      obtain ⟨c', hnext', hcc'⟩ := hbw.next hcoherent hb (hwithin w hw) hnext
      exact ⟨c', hclosed w hw c' hnext', (hwithin w hw).next hnext', hcc'⟩

/-- So what was looked for holds wherever the walk goes on to. -/
theorem holds_of_leads (hcoherent : Coherent among) (hwithin : ∀ w, G w → w.Within among)
    (hclosed : ∀ w, G w → ∀ y, w.Next y → I.Explored G y) (hx : I.Explored G x)
    (hxwithin : x.Within among) (hleads : x.LeadsThrough I.passes z) : I.Holds z := by
  obtain ⟨y, hy, hywithin, hzy⟩ :=
    mirrors_of_leads hcoherent hwithin hclosed hx hxwithin hleads
  exact hy.1.of_mirrors hcoherent hzy (hxwithin.leads hleads.leads) hywithin

end Inquiry

/-! ### The memory of what was entered at the container -/

theorem Provider.eq_delegate {p : Provider} (hp : p.isDelegate = true) :
    ∃ ty result params isAsync, p = .delegate ty result params isAsync := by
  cases p with
  | delegate ty result params isAsync => exact ⟨ty, result, params, isAsync, rfl⟩
  | _ => cases hp

theorem Provider.lifetime_of_isDelegate {p : Provider} (hp : p.isDelegate = true) :
    p.lifetime = .resolution := by
  obtain ⟨ty, result, params, isAsync, rfl⟩ := eq_delegate hp
  rfl

namespace Environment

theorem root_of_isContainer {env : Environment} (h : env.isContainer = true) : env.root = env := by
  cases env
  rw [isContainer, List.isEmpty_iff] at h
  cases h
  rfl

/-- Only a singleton leads back to the container. -/
theorem isContainer_of_enter {env : Environment} {p : Provider} (hp : p.lifetime ≠ .single)
    (h : (env.enter p).isContainer = true) : env.isContainer = true := by
  unfold enter at h
  split at h
  · cases h
  · cases h
  · rwa [if_neg hp] at h

theorem isContainer_of_isNear {env : Environment} {p : Provider} (h : env.isNear p = true)
    (hp : p.lifetime ≠ .single) : env.isContainer = true :=
  (Bool.or_eq_true_iff.mp h).elim id (isContainer_of_enter hp)

/-- Near the container, where the dependencies are resolved depends on the provider alone. -/
theorem enter_of_isNear {env : Environment} {p : Provider} (h : env.isNear p = true) :
    env.enter p = env.root.enter p := by
  by_cases hsingle : p.lifetime = .single
  · rw [enter_of_single _ hsingle, enter_of_single _ hsingle]
    rfl
  · rw [root_of_isContainer (isContainer_of_isNear h hsingle)]

/-- The body of a delegate is never the container. -/
theorem isContainer_of_isNear_delegate {env : Environment} {p : Provider} (h : env.isNear p = true)
    (hp : p.isDelegate = true) : env.isContainer = true := by
  obtain ⟨ty, result, params, isAsync, rfl⟩ := Provider.eq_delegate hp
  rcases Bool.or_eq_true_iff.mp h with h | h
  · exact h
  · cases h

end Environment

/-- A place among those entered where a provider with this identity was met near the container. -/
def Noted (tracked : Bool) (G : Place → Prop) (key : Provider.Identity × Bool) : Prop :=
  ∃ w q, G w ∧ w.request.provider? = some q ∧ q.identity = key.1 ∧ w.env.isNear q = true ∧
    (tracked = true → q.waits w.isAsync = key.2)

/-- A place of one container whose unfolding holds only the given providers. -/
structure Place.Belongs (catalog : Catalog) (among : Provider → Prop) (x : Place) : Prop where
  catalog : x.env.catalog = catalog
  within : x.Within among

theorem Place.Belongs.next {catalog : Catalog} {among : Provider → Prop} {x y : Place}
    (h : x.Belongs catalog among) (hxy : x.Next y) : y.Belongs catalog among := by
  refine ⟨?_, h.within.next hxy⟩
  cases hxy with
  | intro _ _ => exact (Environment.catalog_enter _ _).trans h.catalog

/-- All places below a place are in the container of that place. -/
theorem Place.catalog_of_leads {x y : Place} (h : x.Leads y) : y.env.catalog = x.env.catalog := by
  induction h with
  | refl => rfl
  | tail _ hstep ih =>
      obtain ⟨-, -⟩ := hstep
      exact (Environment.catalog_enter _ _).trans ih

section

variable {tracked : Bool} {catalog : Catalog} {among : Provider → Prop} {G G' : Place → Prop}
  {x : Place} {p : Provider}

theorem Noted.mono {key : Provider.Identity × Bool} (h : Noted tracked G key)
    (hle : ∀ w, G w → G' w) : Noted tracked G' key :=
  let ⟨w, q, hw, hrest⟩ := h
  ⟨w, q, hle w hw, hrest⟩

/-- A place passed over because its provider is noted resembles one entered. -/
theorem Noted.resembles (hcoherent : Coherent among)
    (hG : ∀ w, G w → w.Belongs catalog among) (hx : x.Belongs catalog among)
    (hp : x.request.provider? = some p) (hnear : x.env.isNear p = true) {isAsync : Bool}
    (h : Noted tracked G (p.identity, isAsync))
    (hsame : tracked = true → p.waits x.isAsync = isAsync) : ∃ w, G w ∧ x.Resembles tracked w := by
  obtain ⟨w, q, hw, hq, hidentity, hqnear, hwaits⟩ := h
  have halike := hcoherent p q (hx.within.provider hp) ((hG w hw).within.provider hq) hidentity.symm
  refine ⟨w, hw, p, q, hp, hq, halike.identity, fun htracked =>
    (hsame htracked).trans (hwaits htracked).symm, ?_⟩
  -- Near the container both have their dependencies resolved from the one root.
  have hroot : x.env.root = w.env.root := by
    rw [Environment.root, Environment.root, hx.catalog, (hG w hw).catalog]
  rw [Environment.enter_of_isNear hnear, Environment.enter_of_isNear hqnear, hroot, halike.enter]
  exact .refl _

/-! ### The delegates around -/

/-- The delegates around the dependencies of a provider, given those around the provider. -/
def delegatesBelow (p : Provider) (delegates : List Provider.Identity) : List Provider.Identity :=
  let around := if p.lifetime = .single then [] else delegates
  if p.isDelegate then p.identity :: around else around

/-- The delegates around an environment were entered, and the environment lies in their bodies. -/
structure Deferred (G : Place → Prop) (env : Environment) (delegates : List Provider.Identity) :
    Prop where
  container : env.isContainer = true → delegates = []
  entered : ∀ identity ∈ delegates, ∃ w q, G w ∧ w.request.provider? = some q ∧
    q.isDelegate = true ∧ q.identity = identity ∧ env.Covers (w.env.enter q)

theorem Deferred.none (env : Environment) : Deferred G env [] :=
  ⟨fun _ => rfl, fun _ hmem => by cases hmem⟩

theorem Deferred.mono {env : Environment} {delegates : List Provider.Identity}
    (h : Deferred G env delegates) (hle : ∀ w, G w → G' w) : Deferred G' env delegates :=
  ⟨h.container, fun identity hmem =>
    let ⟨w, q, hw, hrest⟩ := h.entered identity hmem
    ⟨w, q, hle w hw, hrest⟩⟩

/-- What is known of the delegates around a provider entered is known below it. -/
theorem Deferred.enter {delegates : List Provider.Identity} (h : Deferred G x.env delegates)
    (hx : G x) (hp : x.request.provider? = some p) :
    Deferred G (x.env.enter p) (delegatesBelow p delegates) := by
  by_cases hdelegate : p.isDelegate = true
  · have hsingle : p.lifetime ≠ .single := by rw [Provider.lifetime_of_isDelegate hdelegate]; decide
    refine ⟨fun hcontainer => ?_, fun identity hmem => ?_⟩
    · obtain ⟨ty, result, params, isAsync, rfl⟩ := Provider.eq_delegate hdelegate
      cases hcontainer
    · rw [delegatesBelow, if_pos hdelegate, if_neg hsingle] at hmem
      rcases List.mem_cons.mp hmem with rfl | hmem
      · exact ⟨x, p, hx, hp, hdelegate, rfl, .refl _⟩
      · obtain ⟨w, q, hw, hq, hqdelegate, hidentity, hcovers⟩ := h.entered identity hmem
        exact ⟨w, q, hw, hq, hqdelegate, hidentity, hcovers.deeper hsingle⟩
  · rw [delegatesBelow, if_neg hdelegate]
    by_cases hsingle : p.lifetime = .single
    · rw [if_pos hsingle]
      exact .none _
    · rw [if_neg hsingle]
      refine ⟨fun hcontainer => ?_, fun identity hmem => ?_⟩
      · exact h.container (Environment.isContainer_of_enter hsingle hcontainer)
      · obtain ⟨w, q, hw, hq, hqdelegate, hidentity, hcovers⟩ := h.entered identity hmem
        exact ⟨w, q, hw, hq, hqdelegate, hidentity, hcovers.deeper hsingle⟩

/-- A delegate passed over because it is met in its own body resembles the one entered: below it
there is one more frame of the same parameters. -/
theorem Deferred.resembles {delegates : List Provider.Identity} (hcoherent : Coherent among)
    (hG : ∀ w, G w → w.Belongs catalog among) (hx : x.Belongs catalog among)
    (h : Deferred G x.env delegates) (hp : x.request.provider? = some p)
    (hdelegate : p.isDelegate = true) (hmem : p.identity ∈ delegates) :
    ∃ w, G w ∧ x.Resembles tracked w := by
  obtain ⟨w, q, hw, hq, hqdelegate, hidentity, hcovers⟩ := h.entered _ hmem
  have halike := hcoherent p q (hx.within.provider hp) ((hG w hw).within.provider hq) hidentity.symm
  have hsingle : p.lifetime ≠ .single := by rw [Provider.lifetime_of_isDelegate hdelegate]; decide
  refine ⟨w, hw, p, q, hp, hq, halike.identity, fun _ => ?_, hcovers.deeper hsingle⟩
  have hbody : p.identity.isBody = true := by
    obtain ⟨ty, result, params, isAsync, rfl⟩ := Provider.eq_delegate hdelegate
    rfl
  rw [Provider.waits_eq, Provider.waits_eq, ← halike.identity, if_pos hbody, if_pos hbody,
    halike.isAsync]

/-- A delegate met in its own body is not noted: it is met in a body. -/
theorem Deferred.not_near {delegates : List Provider.Identity} (h : Deferred G x.env delegates)
    (hdelegate : p.isDelegate = true) (hmem : p.identity ∈ delegates) :
    x.env.isNear p = false := by
  cases hnear : x.env.isNear p with
  | false => rfl
  | true =>
      rw [h.container (Environment.isContainer_of_isNear_delegate hnear hdelegate)] at hmem
      cases hmem

end

/-! ### The places entered along a walk -/

namespace Inquiry

variable {I : Inquiry} {catalog : Catalog} {among : Provider → Prop} {G G' G'' : Place → Prop}
  {x y : Place} {p : Provider}

/-- The places entered grow by places of the container below which everything is explored. -/
structure Grows (I : Inquiry) (catalog : Catalog) (among : Provider → Prop) (G G' : Place → Prop) :
    Prop where
  le : ∀ w, G w → G' w
  belongs : ∀ w, G' w → w.Belongs catalog among
  closed : ∀ w, G' w → ¬ G w → ∀ y, w.Next y → I.Explored G' y

theorem Grows.refl (hG : ∀ w, G w → w.Belongs catalog among) : I.Grows catalog among G G :=
  ⟨fun _ hw => hw, hG, fun _ hw hnot => absurd hw hnot⟩

theorem Grows.trans (h : I.Grows catalog among G G') (h' : I.Grows catalog among G' G'') :
    I.Grows catalog among G G'' := by
  refine ⟨fun w hw => h'.le w (h.le w hw), h'.belongs, fun w hw hnot y hy => ?_⟩
  by_cases hmid : G' w
  · exact (h.closed w hmid hnot y hy).mono h'.le
  · exact h'.closed w hw hmid y hy

/-- The places entered and one more. -/
def entering (G : Place → Prop) (x : Place) : Place → Prop := fun w => w = x ∨ G w

theorem belongs_entering (hG : ∀ w, G w → w.Belongs catalog among) (hx : x.Belongs catalog among) :
    ∀ w, entering G x w → w.Belongs catalog among := by
  rintro w (rfl | hw)
  · exact hx
  · exact hG w hw

/-- A place is entered, and then everything below it is explored. -/
theorem Grows.of_entering (h : I.Grows catalog among (entering G x) G')
    (hbelow : ∀ y, x.Next y → I.Explored G' y) : I.Grows catalog among G G' := by
  refine ⟨fun w hw => h.le w (.inr hw), h.belongs, fun w hw hnot y hy => ?_⟩
  by_cases heq : w = x
  · subst heq
    exact hbelow y hy
  · exact h.closed w hw (fun hmem => hmem.elim heq hnot) y hy

/-- Once a place is entered it is explored, if what is looked for holds there. -/
theorem Grows.explored (h : I.Grows catalog among (entering G x) G') (hx : I.Holds x) :
    I.Explored G' x := by
  refine ⟨hx, fun p hp _ => ⟨x, h.le x (.inl rfl), p, p, hp, hp, rfl, fun _ => rfl, .refl _⟩⟩

/-- A walk that started with nothing entered has looked at the whole unfolding. -/
theorem Grows.holds_of_leads (hcoherent : Coherent among)
    (h : I.Grows catalog among (fun _ => False) G) (hx : x.Belongs catalog among)
    (hexplored : I.Explored G x) {z : Place} (hleads : x.LeadsThrough I.passes z) : I.Holds z :=
  Inquiry.holds_of_leads hcoherent (fun w hw => (h.belongs w hw).within)
    (fun w hw => h.closed w hw id) hexplored hx.within hleads

/-- Everything with dependencies that such a walk goes on to resembles a place entered. -/
theorem Grows.resembles_of_leads (hcoherent : Coherent among)
    (h : I.Grows catalog among (fun _ => False) G) (hx : x.Belongs catalog among)
    (hexplored : I.Explored G x) {y z : Place} (hleads : x.LeadsThrough I.passes z)
    (hpass : z.Passes I.passes) (hzy : z.Next y) : ∃ w, G w ∧ z.Resembles I.tracked w := by
  obtain ⟨x', hx', hwithin, hmirrors⟩ := mirrors_of_leads hcoherent
    (fun w hw => (h.belongs w hw).within) (fun w hw => h.closed w hw id) hexplored hx.within hleads
  obtain ⟨p, hp⟩ : ∃ p, z.request.provider? = some p := by
    cases hzy with
    | intro hprovider _ => exact ⟨_, hprovider⟩
  have hz := hx.within.leads hleads.leads
  have hparameter := hzy.not_parameter hp
  obtain ⟨q, hq, halike⟩ := hmirrors.alike hcoherent hz hwithin hp hparameter
  obtain ⟨w, hw, hresembles⟩ := hx'.2 q hq (I.passes_alike p q halike (hpass p hp))
  exact ⟨w, hw, (hmirrors.resembles hcoherent hz hwithin hp hparameter).trans hresembles⟩

end Inquiry

end Wiring
