import Wiring.Proofs.Survey.Exactness

/-!
# What a survey goes through

Apart from its memory a survey goes from a provider to its dependencies, but not into a delegate from
within its own body. The memory passes over a provider only where one of its identity was entered
with the same surroundings inside. So a survey that never stops early has looked at everything on the
way, each provider in its very environment; and what the walk leaves out below delegates is found
elsewhere, as far as it is no parameter.

* `Context.Walks` — the requests on the way from a first one.
* `Visits.sees` — what a survey looked at, its memory accounted for.
* `Context.Walks.cleared` — a survey that ends clean has cleared everything on the way.
* `Context.Walks.exists_of_leads` — whatever lies below the first request is met on the way.
-/

namespace Wiring.Survey

/-! ### The walk without a memory -/

/-- The requests on the way from a first one, each with its surroundings. -/
inductive Context.Walks (start : Environment) (first : Request) : Context → Request → Prop
  | start : Walks start first ⟨start, []⟩ first
  | next {ctx : Context} {r below : Request} {p : Provider} (way : Walks start first ctx r)
      (hprovider : r.provider? = some p) (hinside : ctx.isInside p = false)
      (hbelow : below ∈ (ctx.enter p).env.requests p) : Walks start first (ctx.enter p) below

namespace Context

/-- At the container no delegate is around. -/
def IsProper (ctx : Context) : Prop :=
  ctx.env.isContainer = true → ctx.delegates = []

variable {ctx ctx' : Context} {p q : Provider} {among : Provider → Prop}

theorem IsProper.enter (h : ctx.IsProper) (p : Provider) : (ctx.enter p).IsProper := by
  intro hcontainer
  show delegatesBelow p ctx.delegates = []
  have hdelegate : p.isDelegate ≠ true := fun hp => by
    obtain ⟨ty, result, params, isAsync, rfl⟩ := Provider.eq_delegate hp
    cases hcontainer
  rw [delegatesBelow, if_neg hdelegate]
  by_cases hsingle : p.lifetime = .single
  · rw [if_pos hsingle]
  · rw [if_neg hsingle]
    exact h (Environment.isContainer_of_enter hsingle hcontainer)

theorem isInside_congr (h : p.identity = q.identity) : ctx.isInside p = ctx.isInside q := by
  rw [isInside, isInside, ← Provider.isDelegate_identity, ← Provider.isDelegate_identity, h]

/-- Alike providers have the same surroundings inside. -/
theorem enter_congr (h : p.Alike q) : ctx.enter p = ctx.enter q := by
  unfold enter
  rw [h.enter, h.lifetime, h.isDelegate, h.identity]

/-- Near the container the surroundings inside depend on the provider alone. -/
theorem enter_of_isNear (h : p.Alike q) (hctx : ctx.IsProper) (hctx' : ctx'.IsProper)
    (hcatalog : ctx.env.catalog = ctx'.env.catalog) (hp : ctx.env.isNear p = true)
    (hq : ctx'.env.isNear q = true) : ctx.enter p = ctx'.enter q := by
  -- Near the container a provider is a singleton, which forgets the delegates around, or stands at the
  -- container itself, where there are none.
  have hdelegates : ∀ {ctx : Context} {p : Provider}, ctx.IsProper → ctx.env.isNear p = true →
      (ctx.enter p).delegates = delegatesBelow p [] := by
    intro ctx p hctx hnear
    show delegatesBelow p ctx.delegates = delegatesBelow p []
    by_cases hsingle : p.lifetime = .single
    · simp only [delegatesBelow, if_pos hsingle]
    · rw [hctx]
      exact Environment.isContainer_of_isNear hnear hsingle
  have henv : (ctx.enter p).env = (ctx'.enter q).env := by
    show ctx.env.enter p = ctx'.env.enter q
    rw [Environment.enter_of_isNear hp, Environment.enter_of_isNear hq, h.enter, Environment.root,
      Environment.root, hcatalog]
  have hbelow : (ctx.enter p).delegates = (ctx'.enter q).delegates := by
    rw [hdelegates hctx hp, hdelegates hctx' hq, delegatesBelow, delegatesBelow, h.lifetime,
      h.isDelegate, h.identity]
  cases hpe : ctx.enter p
  cases hqe : ctx'.enter q
  rw [hpe, hqe] at henv hbelow
  cases henv
  cases hbelow
  rfl

end Context

/-! ### What a survey sees -/

variable {α : Type}

/-- A survey that goes on everywhere, as long as what was found is clean, and clears what it judges. -/
structure Clears (survey : Survey α) (P : Provider → Prop) (clean : α → Prop) : Prop where
  judges : Judges survey .everywhere clean
  clears : ∀ p found goOn after, survey.judge p found = .ok (goOn, after) → clean after → P p

/-- A provider was cleared. Unless it is a delegate met in its own body, one of its identity was
entered, with the same surroundings inside. -/
def Sees (P : Provider → Prop) (E : Context → Provider → Prop) (ctx : Context) (p : Provider) :
    Prop :=
  P p ∧ (ctx.isInside p = false → ∃ ctx' q, E ctx' q ∧ q.identity = p.identity ∧
    ctx'.enter q = ctx.enter p)

/-- A provider entered belongs to a container. -/
structure Context.Hosts (catalog : Catalog) (among : Provider → Prop) (ctx : Context) (p : Provider) :
    Prop where
  proper : ctx.IsProper
  belongs : ∃ isAsync, (Place.mk ctx.env isAsync (Environment.given p)).Belongs catalog among

/-- The providers entered grow by some below which everything is seen. -/
structure Enters (P : Provider → Prop) (catalog : Catalog) (among : Provider → Prop)
    (E E' : Context → Provider → Prop) : Prop where
  le : ∀ ctx p, E ctx p → E' ctx p
  hosts : ∀ ctx p, E' ctx p → ctx.Hosts catalog among p
  closed : ∀ ctx p, E' ctx p → ¬ E ctx p → ∀ r ∈ (ctx.enter p).env.requests p, ∀ q,
    r.provider? = some q → Sees P E' (ctx.enter p) q

/-- The memory of a survey stands for providers entered near the container. -/
def Recalls (E : Context → Provider → Prop) (s : State α) : Prop :=
  ∀ identity ∈ s.entered, ∃ ctx p, E ctx p ∧ p.identity = identity ∧ ctx.env.isNear p = true

section

variable {survey : Survey α} {clean : α → Prop} {P : Provider → Prop} {catalog : Catalog}
  {among : Provider → Prop} {E E' E'' : Context → Provider → Prop} {ctx : Context} {p : Provider}
  {s s' : State α}

theorem Sees.mono (h : Sees P E ctx p) (hle : ∀ ctx p, E ctx p → E' ctx p) : Sees P E' ctx p :=
  ⟨h.1, fun hinside =>
    let ⟨ctx', q, hq, hrest⟩ := h.2 hinside
    ⟨ctx', q, hle ctx' q hq, hrest⟩⟩

theorem Enters.refl (hE : ∀ ctx p, E ctx p → ctx.Hosts catalog among p) :
    Enters P catalog among E E :=
  ⟨fun _ _ h => h, hE, fun _ _ h hnot => absurd h hnot⟩

theorem Enters.trans (h : Enters P catalog among E E') (h' : Enters P catalog among E' E'') :
    Enters P catalog among E E'' := by
  refine ⟨fun ctx p hp => h'.le ctx p (h.le ctx p hp), h'.hosts, fun ctx p hp hnot r hr q hq => ?_⟩
  by_cases hmid : E' ctx p
  · exact (h.closed ctx p hmid hnot r hr q hq).mono h'.le
  · exact h'.closed ctx p hp hmid r hr q hq

/-- The providers entered and one more. -/
def entering (E : Context → Provider → Prop) (ctx : Context) (p : Provider) :
    Context → Provider → Prop :=
  fun ctx' q => ctx' = ctx ∧ q = p ∨ E ctx' q

theorem Enters.of_entering (h : Enters P catalog among (entering E ctx p) E')
    (hbelow : ∀ r ∈ (ctx.enter p).env.requests p, ∀ q, r.provider? = some q →
      Sees P E' (ctx.enter p) q) : Enters P catalog among E E' := by
  refine ⟨fun ctx' q hq => h.le ctx' q (.inr hq), h.hosts, fun ctx' q hq hnot => ?_⟩
  by_cases heq : ctx' = ctx ∧ q = p
  · obtain ⟨rfl, rfl⟩ := heq
    exact hbelow
  · exact h.closed ctx' q hq fun hmem => hmem.elim heq hnot

theorem Recalls.mono (h : Recalls E s) (hle : ∀ ctx p, E ctx p → E' ctx p) : Recalls E' s :=
  fun identity hmem =>
    let ⟨ctx', q, hq, hrest⟩ := h identity hmem
    ⟨ctx', q, hle ctx' q hq, hrest⟩

theorem Recalls.entering {found : α} (h : Recalls E s) :
    Recalls (entering E ctx p) (State.entering { s with found } ctx p) := by
  have hold : Recalls (Survey.entering E ctx p) s := h.mono fun _ _ => .inr
  intro identity hidentity
  unfold State.entering at hidentity
  split at hidentity
  · rename_i hnear
    rcases List.mem_cons.mp hidentity with rfl | hidentity
    · exact ⟨ctx, p, .inl ⟨rfl, rfl⟩, rfl, hnear⟩
    · exact hold identity hidentity
  · exact hold identity hidentity

/-- What is recalled near the container was entered with the same surroundings inside. -/
theorem Recalls.sees (hcoherent : Coherent among) (h : Recalls E s)
    (hE : ∀ ctx p, E ctx p → ctx.Hosts catalog among p) (hp : ctx.Hosts catalog among p)
    (hnear : ctx.env.isNear p = true) (hmem : p.identity ∈ s.entered) (hcleared : P p) :
    Sees P E ctx p := by
  obtain ⟨ctx', q, hq, hidentity, hqnear⟩ := h _ hmem
  obtain ⟨isAsync, hbelongs⟩ := hp.belongs
  obtain ⟨isAsync', hbelongs'⟩ := (hE ctx' q hq).belongs
  have halike : q.Alike p :=
    hcoherent q p (hbelongs'.within.provider rfl) (hbelongs.within.provider rfl) hidentity
  exact ⟨hcleared, fun _ => ⟨ctx', q, hq, hidentity, Context.enter_of_isNear halike
    (hE ctx' q hq).proper hp.proper (hbelongs'.catalog.trans hbelongs.catalog.symm) hqnear hnear⟩⟩

mutual

/-- What a survey looks at and ends clean with is seen, and so is everything below: it was judged, and
unless it is a delegate in its own body, something of its identity was entered with the same
surroundings inside. -/
theorem Visits.sees (hcoherent : Coherent among) (hclears : Clears survey P clean) {r : Request}
    {E : Context → Provider → Prop} {ctx : Context} {s s' : State α} (isAsync : Bool) :
    Visits survey ctx r s s' → (∀ ctx p, E ctx p → ctx.Hosts catalog among p) →
      (Place.mk ctx.env isAsync r).Belongs catalog among → ctx.IsProper → Recalls E s →
      clean s'.found →
      ∃ E', Enters P catalog among E E' ∧ (∀ p, r.provider? = some p → Sees P E' ctx p) ∧
        Recalls E' s'
  | .settled hsettled, _, _, _, _, hclean => absurd hclean (hclears.judges.settled _ hsettled)
  | .absent hprovider, hE, _, _, hs, _ =>
      ⟨E, .refl hE, fun p hp => absurd (hprovider.symm.trans hp) (by simp), hs⟩
  | .stopped _ hjudge, _, _, _, _, hclean =>
      absurd trivial (hclears.judges.goesOn _ _ _ hjudge hclean)
  -- Near the container it is entered once for its identity: what was entered then is seen, and it looks
  -- alike from here.
  | .before (p := p) hprovider hjudge hnear hentered, hE, hx, hctx, hs, hclean => by
      refine ⟨E, .refl hE, fun q hq => ?_, hs⟩
      cases hprovider.symm.trans hq
      exact hs.sees hcoherent hE ⟨hctx, isAsync, hx.catalog, hx.within.given hprovider⟩ hnear hentered
        (hclears.clears _ _ _ _ hjudge hclean)
  | .inside (p := p) hprovider hjudge hinside, hE, hx, hctx, hs, hclean => by
      rw [State.entering_found] at hclean
      refine ⟨E, .refl hE, fun q hq => ?_, ?_⟩
      · cases hprovider.symm.trans hq
        refine ⟨hclears.clears _ _ _ _ hjudge hclean, fun hnot => ?_⟩
        rw [hinside] at hnot
        cases hnot
      · -- In its own body a delegate is not near the container, so nothing was noted.
        have hnear : ctx.env.isNear p ≠ true := fun hnear => by
          obtain ⟨hdelegate, hmem⟩ := Bool.and_eq_true_iff.mp hinside
          rw [hctx (Environment.isContainer_of_isNear_delegate hnear hdelegate)] at hmem
          cases hmem
        rw [State.entering, if_neg hnear]
        exact hs
  -- Whatever is below is seen by induction, with this provider among those entered. A judgement that is
  -- not clean at the end was not clean before.
  | .entered (p := p) hprovider hjudge below, hE, hx, hctx, hs, hclean => by
      have hbefore := below.clean_before hclears.judges hclean
      rw [State.entering_found] at hbefore
      have hE₁ : ∀ ctx' q, entering E ctx p ctx' q → ctx'.Hosts catalog among q := by
        rintro ctx' q (⟨rfl, rfl⟩ | hq)
        · exact ⟨hctx, isAsync, hx.catalog, hx.within.given hprovider⟩
        · exact hE ctx' q hq
      obtain ⟨E', henters, hbelow, hs'⟩ := below.sees hcoherent hclears (p.waits isAsync) hE₁
        (fun r' hr' => hx.next (.intro hprovider hr')) (hctx.enter p) hs.entering hclean
      refine ⟨E', henters.of_entering hbelow, fun q hq => ?_, hs'⟩
      cases hprovider.symm.trans hq
      exact ⟨hclears.clears _ _ _ _ hjudge hbefore,
        fun _ => ⟨ctx, p, henters.le ctx p (.inl ⟨rfl, rfl⟩), rfl, rfl⟩⟩

theorem VisitsAll.sees (hcoherent : Coherent among) (hclears : Clears survey P clean)
    {requests : List Request} {E : Context → Provider → Prop} {ctx : Context} {s s' : State α}
    (isAsync : Bool) :
    VisitsAll survey ctx requests s s' → (∀ ctx p, E ctx p → ctx.Hosts catalog among p) →
      (∀ r ∈ requests, (Place.mk ctx.env isAsync r).Belongs catalog among) → ctx.IsProper →
      Recalls E s → clean s'.found →
      ∃ E', Enters P catalog among E E' ∧
        (∀ r ∈ requests, ∀ p, r.provider? = some p → Sees P E' ctx p) ∧ Recalls E' s'
  | .nil, hE, _, _, hs, _ => ⟨E, .refl hE, by simp, hs⟩
  | .cons head tail, hE, hx, hctx, hs, hclean => by
      obtain ⟨E₁, henters₁, hsees, hs₁⟩ := head.sees hcoherent hclears isAsync hE
        (hx _ List.mem_cons_self) hctx hs (tail.clean_before hclears.judges hclean)
      obtain ⟨E₂, henters₂, hrest, hs₂⟩ := tail.sees hcoherent hclears isAsync henters₁.hosts
        (fun r' hr' => hx r' (List.mem_cons_of_mem _ hr')) hctx hs₁ hclean
      refine ⟨E₂, henters₁.trans henters₂, fun r' hr' p hp => ?_, hs₂⟩
      rcases List.mem_cons.mp hr' with rfl | hr'
      · exact (hsees p hp).mono henters₂.le
      · exact hrest r' hr' p hp

end

end

/-! ### What lies on the way -/

namespace Context.Walks

variable {start : Environment} {first : Request} {ctx : Context} {r : Request} {catalog : Catalog}
  {among : Provider → Prop} {isAsync : Bool} {p : Provider}

/-- What is on the way lies below the first request. -/
theorem leads (h : Walks start first ctx r) (isAsync : Bool) :
    ∃ isAsync', (Place.mk start isAsync first).Leads ⟨ctx.env, isAsync', r⟩ := by
  induction h with
  | start => exact ⟨isAsync, .refl⟩
  | next _ hprovider _ hbelow ih =>
      obtain ⟨isAsync', hleads⟩ := ih
      exact ⟨_, hleads.tail (.intro hprovider hbelow)⟩

theorem belongs (h : Walks start first ctx r)
    (hfirst : (Place.mk start isAsync first).Belongs catalog among) :
    ∃ isAsync, (Place.mk ctx.env isAsync r).Belongs catalog among :=
  let ⟨isAsync', hleads⟩ := h.leads isAsync
  ⟨isAsync', (Place.catalog_of_leads hleads).trans hfirst.catalog, hfirst.within.leads hleads⟩

/-- A survey that ends clean has cleared everything on the way, if providers of one identity are
cleared together. -/
theorem cleared {α : Type} {survey : Survey α} {clean : α → Prop} {P : Provider → Prop}
    {initial found : α} (hcoherent : Coherent among) (hclears : Clears survey P clean)
    (hagrees : ∀ p q, among p → among q → p.identity = q.identity → P q → P p)
    (hwithin : (Place.mk start isAsync first).Within among)
    (hrun : survey.run start first initial = .ok found) (hclean : clean found)
    (h : Walks start first ctx r) (hp : r.provider? = some p) : P p := by
  obtain ⟨entered, hvisits⟩ := run_sound hrun
  have hfirst : (Place.mk start isAsync first).Belongs start.catalog among := ⟨rfl, hwithin⟩
  obtain ⟨E, henters, hsees, -⟩ := hvisits.sees (E := fun _ _ => False) hcoherent hclears isAsync
    (by simp) hfirst (fun _ => rfl) (fun _ hmem => by cases hmem) hclean
  -- Each provider on the way has the identity of one that was seen with the same surroundings.
  have hseen : ∀ {ctx r}, Walks start first ctx r → ∀ p, r.provider? = some p →
      ∃ q, Sees P E ctx q ∧ among q ∧ q.identity = p.identity := by
    intro ctx r hway
    induction hway with
    | start => exact fun p hp => ⟨p, hsees p hp, hwithin.provider hp, rfl⟩
    | @next ctx r below p way hprovider hinside hbelow ih =>
        intro p₁ hp₁
        obtain ⟨q, hq, hqamong, hidentity⟩ := ih p hprovider
        obtain ⟨isAsync', hbelongs⟩ := way.belongs hfirst
        have hpamong := hbelongs.within.provider hprovider
        rw [← isInside_congr hidentity] at hinside
        -- What was entered in its place is alike and has the same surroundings inside, so it requests
        -- alike; and what it requests was seen.
        obtain ⟨ctx', q', hentered, hidentity', hsame⟩ := hq.2 hinside
        obtain ⟨isAsync'', hbelongs'⟩ := (henters.hosts ctx' q' hentered).belongs
        have halike : p.Alike q' := hcoherent p q' hpamong (hbelongs'.within.provider rfl)
          (hidentity'.trans hidentity).symm
        have hsame' : ctx'.enter q' = ctx.enter p :=
          hsame.trans (enter_congr (hcoherent q p hqamong hpamong hidentity))
        obtain ⟨r', hr', hkey⟩ := halike.request hbelow
        obtain ⟨-, hidentities⟩ := Prod.ext_iff.mp hkey
        rw [Request.key, Request.key, hp₁] at hidentities
        obtain ⟨p₂, hp₂, hidentity₂⟩ := Option.map_eq_some_iff.mp hidentities
        rw [← hsame'] at hr'
        have hbelow' := henters.closed ctx' q' hentered (fun h => h) r' hr' p₂ hp₂
        rw [hsame'] at hbelow'
        exact ⟨p₂, hbelow', (hbelongs'.within.next (.intro rfl hr')).provider hp₂, hidentity₂⟩
  obtain ⟨q, hq, hqamong, hidentity⟩ := hseen h p hp
  obtain ⟨isAsync', hbelongs⟩ := h.belongs hfirst
  exact hagrees p q (hbelongs.within.provider hp) hqamong hidentity.symm hq.1

/-- The places where something is entered on the way. -/
def Enters (start : Environment) (first : Request) (x : Place) : Prop :=
  ∃ ctx p, Walks start first ctx x.request ∧ x.env = ctx.env ∧ x.request.provider? = some p ∧
    ctx.isInside p = false

/-- The delegates around on the way were entered. -/
theorem deferred (h : Walks start first ctx r) :
    Deferred (Enters start first) ctx.env ctx.delegates := by
  induction h with
  | start => exact .none _
  | @next ctx r below p way hprovider hinside hbelow ih =>
      exact Deferred.enter (x := ⟨ctx.env, false, r⟩) ih ⟨ctx, p, way, rfl, hprovider, hinside⟩
        hprovider

/-- Whatever lies below the first request, parameters aside, has the identity of something on the way.
The way stops at a delegate in its own body, below which nothing new comes. -/
theorem exists_of_leads (hcoherent : Coherent among)
    (hfirst : (Place.mk start isAsync first).Belongs catalog among) {x : Place}
    (hx : (Place.mk start isAsync first).Leads x) (hp : x.request.provider? = some p)
    (hparameter : ¬ p.IsParameter) :
    ∃ ctx r q, Walks start first ctx r ∧ r.provider? = some q ∧ q.identity = p.identity := by
  have hbelongs : ∀ w, Enters start first w → w.Belongs catalog among := by
    rintro w ⟨ctx, q, way, henv, -, -⟩
    obtain ⟨isAsync', hw⟩ := way.belongs hfirst
    rw [← henv] at hw
    exact ⟨hw.catalog, hw.within.of_isAsync _⟩
  have hexplored : ∀ (y : Place) (ctx : Context), Walks start first ctx y.request →
      y.env = ctx.env → y.Belongs catalog among →
        Inquiry.everywhere.Explored (Enters start first) y := by
    intro y ctx way henv hy
    refine ⟨Inquiry.holds_everywhere y, fun q hq _ => ?_⟩
    -- The walk ends at a delegate in its own body. By then the delegate was entered further up, where
    -- it looks the same, as it is requested in the same environment up to the frames it opened.
    cases hinside : ctx.isInside q with
    | false =>
        exact ⟨y, ⟨ctx, q, way, henv, hq, hinside⟩, q, q, hq, hq, rfl, fun _ => rfl, .refl _⟩
    | true =>
        obtain ⟨hdelegate, hmem⟩ := Bool.and_eq_true_iff.mp hinside
        exact Deferred.resembles hcoherent hbelongs hy (henv ▸ way.deferred) hq hdelegate
          (List.contains_iff_mem.mp hmem)
  have hclosed : ∀ w, Enters start first w → ∀ y, w.Next y →
      Inquiry.everywhere.Explored (Enters start first) y := by
    rintro w hw y hwy
    have hy := (hbelongs w hw).next hwy
    obtain ⟨ctx, q, way, henv, hq, hinside⟩ := hw
    obtain ⟨hprovider, hr⟩ := hwy
    cases hq.symm.trans hprovider
    rw [henv] at hr
    exact hexplored _ (ctx.enter q) (.next way hq hinside hr) (by rw [henv]; rfl) hy
  obtain ⟨y, hy, hywithin, hmirrors⟩ := Inquiry.mirrors_of_leads hcoherent
    (fun w hw => (hbelongs w hw).within) hclosed (hexplored _ ⟨start, []⟩ .start rfl hfirst)
    hfirst.within (Place.leadsThrough_true hx)
  obtain ⟨q, hq, halike⟩ := hmirrors.alike hcoherent (hfirst.within.leads hx) hywithin hp hparameter
  -- What mirrors it may be a delegate in its own body; that delegate was entered further up.
  obtain ⟨w, ⟨ctx, q', way, -, hq', -⟩, q₁, q₂, hq₁, hq₂, hidentity, -⟩ := hy.2 q hq trivial
  cases hq.symm.trans hq₁
  cases hq'.symm.trans hq₂
  exact ⟨ctx, _, q', way, hq', hidentity.symm.trans halike.identity.symm⟩

/-- So has every singleton below a provider with the identity of something on the way, since what is
below the two is alike. -/
theorem exists_of_same (hcoherent : Coherent among)
    (hfirst : (Place.mk start isAsync first).Belongs catalog among) (h : Walks start first ctx r)
    {q : Provider} (hq : r.provider? = some q) (hidentity : q.identity = p.identity) {waits : Bool}
    (hwithin : (Place.mk ctx.env waits (Environment.given p)).Within among) {x : Place}
    (hx : (Place.mk ctx.env waits (Environment.given p)).Leads x) {s : Provider}
    (hs : x.request.provider? = some s) (hsingle : s.lifetime = .single) :
    ∃ ctx r q, Walks start first ctx r ∧ r.provider? = some q ∧ q.identity = s.identity := by
  have hparameter : ∀ {s : Provider}, s.lifetime = .single → ¬ s.IsParameter := by
    rintro _ hsingle ⟨param, name, depth, rfl⟩
    cases hsingle
  obtain ⟨isAsync', hleads⟩ := h.leads isAsync
  have hbelow : (Place.mk ctx.env isAsync' (Environment.given q)).Within among :=
    (hfirst.within.leads hleads).given hq
  have hmirrors : (Place.mk ctx.env waits (Environment.given p)).Mirrors false
      ⟨ctx.env, isAsync', Environment.given q⟩ :=
    ⟨.refl _, (fun htracked => by cases htracked), rfl, .inl (congrArg some hidentity.symm)⟩
  have hpasses : Place.Agrees fun _ => True := fun _ _ _ _ => trivial
  -- The unfolding below a provider of the same identity mirrors that below the one on the way.
  obtain ⟨z, hz, hxz⟩ := hmirrors.leads hcoherent hpasses hwithin hbelow (Place.leadsThrough_true hx)
  obtain ⟨s', hs', halike⟩ := hxz.alike hcoherent (hwithin.leads hx) (hbelow.leads hz.leads) hs
    (hparameter hsingle)
  have hnext : ∀ y, (Place.mk ctx.env isAsync' (Environment.given q)).Next y →
      (Place.mk ctx.env isAsync' r).Next y := by
    intro y hy
    obtain ⟨hprovider, hr⟩ := hy
    cases hprovider
    exact .intro hq hr
  rcases Place.leadsThrough_of_next hq hnext hz with rfl | hz
  · cases hs'
    exact ⟨ctx, r, q, h, hq, halike.identity.symm⟩
  · obtain ⟨ctx', r', q', way, hq', hidentity'⟩ := exists_of_leads hcoherent hfirst
      (hleads.trans hz.leads) hs' (hparameter (halike.lifetime ▸ hsingle))
    exact ⟨ctx', r', q', way, hq', hidentity'.trans halike.identity.symm⟩

end Context.Walks

end Wiring.Survey
