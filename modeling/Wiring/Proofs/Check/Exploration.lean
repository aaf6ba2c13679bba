import Wiring.Proofs.Check.Run
import Wiring.Proofs.Unfolding.Cycles
import Wiring.Proofs.Unfolding.Exploration

/-!
# What a check has seen

A check that reports nothing has seen everything below its root: what it passes over resembles
something that it entered. Each provider that it has entered and left again is settled, that is,
direct dependencies below it go round in no circle. The exception are providers that lead to
themselves through a delegate, since the walk forgets at a delegate which way it came.

* `OnWay` — what the walk has entered and not left leads to where the walk is.
* `Remembers` — what the memory of the walk stands for.
* `Visits.explores`, `run_explores` — a walk that reports nothing has explored what it was asked for.
-/

namespace Wiring

namespace Check

/-- What the check looks for: soundness, everywhere. That is, something required is provided, and
nothing suspends where nothing can wait. -/
def inquiry : Inquiry where
  tracked := true
  allowsAbsent optional := optional = true
  admits isAsync p := p.isAsync = true → isAsync = true ∨ p.isDelegate = true
  passes _ := True
  admits_parameter := by
    rintro _ _ ⟨_, _, _, rfl⟩ hasync
    cases hasync
  admits_alike := by
    intro p q isAsync isAsync' halike hsame h hasync
    rw [hsame rfl, halike.isDelegate]
    exact h (halike.isAsync ▸ hasync)
  passes_alike _ _ _ _ := trivial

theorem holds_inquiry (x : Place) : inquiry.Holds x ↔ x.IsSound := Iff.rfl

/-- The place of a request met on the way of the walk. -/
def Context.place (ctx : Context) (r : Request) : Place := ⟨ctx.env, ctx.isAsync, r⟩

theorem Context.enter_isAsync (ctx : Context) (p : Provider) :
    (ctx.enter p).isAsync = p.waits ctx.isAsync := by
  cases p <;> rfl

theorem Context.enter_segment (ctx : Context) (p : Provider) :
    (ctx.enter p).segment = if p.isDelegate then [] else p.identity :: ctx.segment := rfl

theorem Context.place_enter (ctx : Context) (p : Provider) (r : Request) :
    (ctx.enter p).place r = ⟨ctx.env.enter p, p.waits ctx.isAsync, r⟩ := by
  rw [place, enter_isAsync]
  rfl

theorem Context.next_iff {ctx : Context} {r : Request} {p : Provider} {y : Place}
    (hp : r.provider? = some p) :
    (ctx.place r).Next y ↔ ∃ r' ∈ (ctx.env.enter p).requests p, y = (ctx.enter p).place r' := by
  constructor
  · rintro ⟨hprovider, hr⟩
    cases hp.symm.trans hprovider
    exact ⟨_, hr, (place_enter ..).symm⟩
  · rintro ⟨r', hr', rfl⟩
    rw [place_enter]
    exact .intro hp hr'

section

variable {c : Settings} {catalog : Catalog} {among : Provider → Prop} {G G' : Place → Prop}
  {root x y : Place} {opened : Provider.Identity × Bool → Prop} {ctx : Context} {s s' : State}
  {r : Request} {requests : List Request} {p : Provider}

/-! ### The way by which the walk came -/

/-- Where the walk is, and the providers that it has opened, that is, noted and not left yet: they
lead there, directly or through the body of a delegate. -/
structure OnWay (root : Place) (opened : Provider.Identity × Bool → Prop) (ctx : Context)
    (x : Place) : Prop where
  leads : root.Leads x
  opened : ∀ key, opened key → ∃ z q, root.Leads z ∧ z.request.provider? = some q ∧
    q.identity = key.1 ∧ z.Leads x ∧ (key.1 ∈ ctx.segment ∨ z.LeadsAcross x)

/-- Where the walk starts nothing is open. -/
theorem OnWay.start (root : Place) (ctx : Context) : OnWay root (fun _ => False) ctx root :=
  ⟨.refl, fun _ hopened => hopened.elim⟩

/-- What is open below a provider: it is so itself, if it is noted. -/
def Context.opens (ctx : Context) (p : Provider) (opened : Provider.Identity × Bool → Prop) :
    Provider.Identity × Bool → Prop :=
  fun key => (ctx.env.isNear p = true ∧ key = (p.identity, (ctx.enter p).isAsync)) ∨ opened key

theorem OnWay.enter (h : OnWay root opened ctx x) (hp : x.request.provider? = some p)
    (hxy : x.Next y) : OnWay root (ctx.opens p opened) (ctx.enter p) y := by
  refine ⟨h.leads.tail hxy, fun key hkey => ?_⟩
  obtain ⟨z, q, hz, hq, hidentity, hzx, hway⟩ : ∃ z q, root.Leads z ∧ z.request.provider? = some q ∧
      q.identity = key.1 ∧ z.Leads x ∧ (key.1 ∈ p.identity :: ctx.segment ∨ z.LeadsAcross x) := by
    rcases hkey with ⟨-, rfl⟩ | hkey
    · exact ⟨x, p, h.leads, hp, rfl, .refl, .inl List.mem_cons_self⟩
    · obtain ⟨z, q, hz, hq, hidentity, hzx, hway⟩ := h.opened key hkey
      exact ⟨z, q, hz, hq, hidentity, hzx, hway.imp_left (List.mem_cons_of_mem _)⟩
  refine ⟨z, q, hz, hq, hidentity, hzx.tail hxy, ?_⟩
  -- At a delegate the walk forgets which way it came, but then it leads through that delegate.
  by_cases hdelegate : p.isDelegate = true
  · exact .inr ⟨x, y, p, hzx, hp, hdelegate, hxy, .refl⟩
  · rw [Context.enter_segment, if_neg hdelegate]
    exact hway.imp_right fun hacross => hacross.tail hxy

/-- A provider that is open and no fault where the walk is recurs. -/
theorem OnWay.recurs (h : OnWay root opened ctx (ctx.place r)) (hp : r.provider? = some p)
    (hfault : fault? ctx p = none) {isAsync : Bool} (hopened : opened (p.identity, isAsync)) :
    root.Recurs p.identity := by
  obtain ⟨z, q, hz, hq, hidentity, -, hway⟩ := h.opened _ hopened
  exact ⟨z, ctx.place r, q, p, hz, hway.resolve_left (fault?_none hfault).1, hq, hp, hidentity, rfl⟩

/-! ### Nothing is missed -/

/-- The memory of a walk stands for places entered; those that it has left are settled. -/
structure Remembers (root : Place) (G : Place → Prop) (opened : Provider.Identity × Bool → Prop)
    (s : State) : Prop where
  entered : ∀ key ∈ s.entered, Noted true G key
  left : ∀ key ∈ s.entered, opened key ∨ Noted true (fun w => G w ∧ w.Settled root) key
  unresolved : s.unresolved = []

theorem Remembers.entering (h : Remembers root G opened s) (hp : r.provider? = some p) :
    Remembers root (Inquiry.entering G (ctx.place r)) (ctx.opens p opened) (s.entering ctx p) := by
  -- A key is new only near the container: then this place is what was entered under it, and it counts
  -- as open until the walk has come back.
  refine ⟨fun key hkey => ?_, fun key hkey => ?_, by
    rw [State.entering_unresolved]; exact h.unresolved⟩
  · have hold : key ∈ s.entered → Noted true (Inquiry.entering G (ctx.place r)) key :=
      fun hkey => (h.entered key hkey).mono fun _ => .inr
    unfold State.entering at hkey
    split at hkey
    · rename_i hnear
      rcases List.mem_cons.mp hkey with rfl | hkey
      · exact ⟨ctx.place r, p, .inl rfl, hp, rfl, hnear, fun _ => (ctx.enter_isAsync p).symm⟩
      · exact hold hkey
    · exact hold hkey
  · have hold : key ∈ s.entered → ctx.opens p opened key ∨
        Noted true (fun w => Inquiry.entering G (ctx.place r) w ∧ w.Settled root) key :=
      fun hkey => (h.left key hkey).imp .inr fun hleft => hleft.mono fun _ hw => ⟨.inr hw.1, hw.2⟩
    unfold State.entering at hkey
    split at hkey
    · rename_i hnear
      rcases List.mem_cons.mp hkey with rfl | hkey
      · exact .inl (.inl ⟨hnear, rfl⟩)
      · exact hold hkey
    · exact hold hkey

/-- A provider is left, and its place is settled now. -/
theorem Remembers.leave (h : Remembers root G (ctx.opens p opened) s) (hp : r.provider? = some p)
    (hx : G (ctx.place r)) (hsettled : (ctx.place r).Settled root) : Remembers root G opened s := by
  refine ⟨h.entered, fun key hkey => ?_, h.unresolved⟩
  rcases h.left key hkey with (⟨hnear, rfl⟩ | hopened) | hleft
  · exact .inr ⟨ctx.place r, p, ⟨hx, hsettled⟩, hp, rfl, hnear, fun _ => (ctx.enter_isAsync p).symm⟩
  · exact .inl hopened
  · exact .inr hleft

/-- What a walk over requests has brought about: the places entered have grown, the new ones are
settled, and the requests are explored. -/
structure Explores (catalog : Catalog) (among : Provider → Prop) (root : Place) (G : Place → Prop)
    (opened : Provider.Identity × Bool → Prop) (ctx : Context) (requests : List Request)
    (s' : State) (G' : Place → Prop) : Prop where
  grows : inquiry.Grows catalog among G G'
  /-- Whatever was entered is left again, and settled. -/
  settled : ∀ w, G' w → ¬ G w → w.Settled root
  explored : ∀ r ∈ requests, inquiry.Explored G' (ctx.place r) ∧ (ctx.place r).Settled root
  remembers : Remembers root G' opened s'

/-- A request below which the walk does not go on changes nothing. -/
theorem Explores.of_passed (hG : ∀ w, G w → w.Belongs catalog among)
    (hexplored : inquiry.Explored G (ctx.place r)) (hsettled : (ctx.place r).Settled root)
    (hs : Remembers root G opened s) :
    Explores catalog among root G opened ctx [r] s G :=
  ⟨.refl hG, fun _ hw hnot => absurd hw hnot,
    fun r' hr' => by
      obtain rfl := List.mem_singleton.mp hr'
      exact ⟨hexplored, hsettled⟩, hs⟩

/-- Once everything below a provider is explored, the provider is. -/
theorem Explores.of_below (hp : r.provider? = some p) (hholds : inquiry.Holds (ctx.place r))
    (h : Explores catalog among root (Inquiry.entering G (ctx.place r)) (ctx.opens p opened)
      (ctx.enter p) ((ctx.enter p).env.requests p) s G') :
    Explores catalog among root G opened ctx [r] s G' := by
  have hbelow : ∀ y, (ctx.place r).Next y → inquiry.Explored G' y ∧ y.Settled root := by
    intro y hy
    obtain ⟨r', hr', rfl⟩ := (Context.next_iff hp).mp hy
    exact h.explored r' hr'
  have hsettled : (ctx.place r).Settled root := .of_next fun y hy => (hbelow y hy).2
  refine ⟨h.grows.of_entering fun y hy => (hbelow y hy).1, fun w hw hnot => ?_, fun r' hr' => ?_,
    h.remembers.leave hp (h.grows.le _ (.inl rfl)) hsettled⟩
  · by_cases heq : w = ctx.place r
    · exact heq ▸ hsettled
    · exact h.settled w hw fun hmem => hmem.elim heq hnot
  · obtain rfl := List.mem_singleton.mp hr'
    exact ⟨h.grows.explored hholds, hsettled⟩

mutual

/-- A walk that reports nothing has explored what it was asked for. What it passes over resembles
something entered, and whatever it has left again is settled: no direct way leads from there back to it.
The induction is on the derivation. -/
theorem Visits.explores (hcoherent : Coherent among) {r : Request} {G : Place → Prop}
    {opened : Provider.Identity × Bool → Prop} {ctx : Context} {s s' : State} :
    Visits c ctx r s s' → (∀ w, G w → w.Belongs catalog among) →
      (ctx.place r).Belongs catalog among → OnWay root opened ctx (ctx.place r) →
      Deferred G ctx.env ctx.delegates → Remembers root G opened s → s'.reported = [] →
      ∃ G', Explores catalog among root G opened ctx [r] s' G'
  | .optional hprovider hoptional, hG, _, _, _, hs, _ =>
      ⟨G, .of_passed hG ⟨(Inquiry.holds_of_absent hprovider).mpr hoptional,
        fun p hp => absurd (hprovider.symm.trans hp) (by simp)⟩ (.of_absent hprovider) hs⟩
  | .repeated _ _ hunresolved, _, _, _, _, hs, _ => by
      rw [hs.unresolved] at hunresolved
      cases hunresolved
  | .unresolved _ _, _, _, _, _, _, hreported => by
      simp [State.reporting] at hreported
  -- A walk that has reported something does not end without reports.
  | .faulty _ _, _, _, _, _, _, hreported => by
      simp [State.reporting] at hreported
  | .before (r := r) (p := p) hprovider hfault hnear hentered, hG, hx, hway, _, hs, _ => by
      have hwaits : true = true → p.waits ctx.isAsync = (ctx.enter p).isAsync :=
        fun _ => (ctx.enter_isAsync p).symm
      obtain ⟨w, hw, hresembles⟩ := (hs.entered _ hentered).resembles hcoherent hG hx hprovider
        hnear hwaits
      -- What was entered before has been left since, or it leads here, and then through a delegate.
      have hsettled : (ctx.place r).Settled root := by
        rcases hs.left _ hentered with hopened | hleft
        · exact .of_recurs hprovider (hway.recurs hprovider hfault hopened)
        · obtain ⟨w', hw', hresembles'⟩ := hleft.resembles hcoherent (fun w hw => hG w hw.1) hx
            hprovider hnear hwaits
          exact hw'.2.of_resembles hcoherent hresembles' hx.within (hG w' hw'.1).within
      exact ⟨G, .of_passed hG ⟨(Inquiry.holds_of_provider hprovider).mpr (fault?_none hfault).2,
        fun _ _ _ => ⟨w, hw, hresembles⟩⟩ hsettled hs⟩
  -- In its own body a delegate resembles itself as it was entered further up, and a delegate ends every
  -- direct way, so there is nothing to settle.
  | .inside (r := r) (p := p) hprovider hfault hinside, hG, hx, _, hdeferred, hs, _ => by
      obtain ⟨hdelegate, hmem⟩ := Bool.and_eq_true_iff.mp hinside
      rw [List.contains_iff_mem] at hmem
      obtain ⟨w, hw, hresembles⟩ := hdeferred.resembles hcoherent hG hx hprovider hdelegate hmem
      have hnear : ctx.env.isNear p = false :=
        Deferred.not_near (x := ctx.place r) hdeferred hdelegate hmem
      rw [State.entering, if_neg (by simp [hnear])]
      exact ⟨G, .of_passed hG ⟨(Inquiry.holds_of_provider hprovider).mpr (fault?_none hfault).2,
        fun _ _ _ => ⟨w, hw, hresembles⟩⟩ (.of_delegate hprovider hdelegate) hs⟩
  -- This place is entered, and with it explored everything next to it; what is below may lead back
  -- here.
  | .entered (r := r) (p := p) hprovider hfault below, hG, hx, hway, hdeferred, hs, hreported => by
      have hnext : ∀ r' ∈ (ctx.env.enter p).requests p, (ctx.place r).Next ((ctx.enter p).place r') :=
        fun r' hr' => (Context.next_iff hprovider).mpr ⟨r', hr', rfl⟩
      have hdeferred' : Deferred (Inquiry.entering G (ctx.place r)) (ctx.enter p).env
          (ctx.enter p).delegates :=
        Deferred.enter (x := ctx.place r) (hdeferred.mono fun _ => .inr) (.inl rfl) hprovider
      obtain ⟨G', hbelow⟩ := below.explores hcoherent (Inquiry.belongs_entering hG hx)
        (fun r' hr' => hx.next (hnext r' hr')) (fun r' hr' => hway.enter hprovider (hnext r' hr'))
        hdeferred' (hs.entering hprovider) hreported
      exact ⟨G', hbelow.of_below hprovider
        ((Inquiry.holds_of_provider hprovider).mpr (fault?_none hfault).2)⟩

theorem VisitsAll.explores (hcoherent : Coherent among) {requests : List Request}
    {G : Place → Prop} {opened : Provider.Identity × Bool → Prop} {ctx : Context} {s s' : State} :
    VisitsAll c ctx requests s s' → (∀ w, G w → w.Belongs catalog among) →
      (∀ r ∈ requests, (ctx.place r).Belongs catalog among) →
      (∀ r ∈ requests, OnWay root opened ctx (ctx.place r)) →
      Deferred G ctx.env ctx.delegates → Remembers root G opened s → s'.reported = [] →
      ∃ G', Explores catalog among root G opened ctx requests s' G'
  | .nil, hG, _, _, _, hs, _ => ⟨G, .refl hG, fun _ hw hnot => absurd hw hnot, by simp, hs⟩
  | .cons (r := r) head tail, hG, hx, hway, hdeferred, hs, hreported => by
      have hmid := List.prefix_nil.mp (hreported ▸ tail.reported_extends)
      obtain ⟨G₁, h₁⟩ := head.explores hcoherent hG (hx r List.mem_cons_self)
        (hway r List.mem_cons_self) hdeferred hs hmid
      obtain ⟨G₂, h₂⟩ := tail.explores hcoherent h₁.grows.belongs
        (fun r' hr' => hx r' (List.mem_cons_of_mem _ hr'))
        (fun r' hr' => hway r' (List.mem_cons_of_mem _ hr')) (hdeferred.mono h₁.grows.le)
        h₁.remembers hreported
      refine ⟨G₂, h₁.grows.trans h₂.grows, fun w hw hnot => ?_, fun r' hr' => ?_, h₂.remembers⟩
      -- Settled when the first request was left, or entered for the others.
      · by_cases hmem : G₁ w
        · exact h₁.settled w hmem hnot
        · exact h₂.settled w hw hmem
      · rcases List.mem_cons.mp hr' with rfl | hr'
        · obtain ⟨hexplored, hsettled⟩ := h₁.explored r' (List.mem_singleton_self _)
          exact ⟨hexplored.mono h₂.grows.le, hsettled⟩
        · exact h₂.explored r' hr'

end

/-- A check that reports nothing has explored everything below the root, and everything that it has
entered is settled. -/
theorem run_explores {c : Settings} {env : Environment} {isAsync : Bool}
    (hcoherent : Coherent among) (hwithin : (Place.atRoot env c.root isAsync).Within among)
    (hrun : (run c env isAsync).error? = none) (hclean : (run c env isAsync).diagnostics = []) :
    ∃ G, inquiry.Grows env.catalog among (fun _ => False) G ∧
      inquiry.Explored G (Place.atRoot env c.root isAsync) ∧
      ∀ w, G w → w.Settled (Place.atRoot env c.root isAsync) := by
  obtain ⟨s, hvisits, hreported⟩ := run_sound hrun
  have hway : OnWay (Place.atRoot env c.root isAsync) (fun _ => False) (.atRoot env isAsync)
      ((Context.atRoot env isAsync).place (env.root.request c.root)) := .start _ _
  obtain ⟨G, h⟩ := hvisits.explores (G := fun _ => False) hcoherent (by simp) ⟨rfl, hwithin⟩ hway
    (.none _) ⟨by simp, by simp, rfl⟩ (hreported.symm.trans hclean)
  exact ⟨G, h.grows, (h.explored _ (List.mem_singleton_self _)).1, fun w hw => h.settled w hw id⟩

end

end Check

end Wiring
