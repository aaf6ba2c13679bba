import Mathlib
import Wiring.Declarations
import Wiring.Proofs.Assembly.Calm
import Wiring.Proofs.Assembly.Layout
import Wiring.Proofs.Plan.Sharing
import Wiring.Proofs.Unfolding.Finite

/-!
# Values are produced once

The assembly notes a shared value only after everything that the value needs was obtained. Where no
provider leads directly to one of its own identity, the value cannot have been noted in the meantime,
so that it is noted once and produced once.

* `Touches` — the identities that can be noted while a value is obtained; `Touches.of_request` is
  where acyclicity comes in.
* `State.Shares` — the invariant: every shared value that was produced is noted, is produced by one
  step, and was used wherever it was asked for.
* `State.Shares.extend` — what further steps have to satisfy to keep it.
* `Obtains.shares`, `Assembles.shares` — obtaining a value and assembling a body keep it.
* `planResolution_shares` — each plan and each body produces a shared value once.
-/

namespace Wiring

namespace Assembly

variable {c : Settings} {root x : Place} {base env : Environment} {scope : Scope}
  {known : List (Provider.Identity × Supply)} {p q : Provider} {i : Provider.Identity}
  {s s' t u : State} {supply found : Supply}

/-! ### What is noted -/

/-- The value noted under an identity. -/
def State.noted (s : State) (i : Provider.Identity) : Option Supply :=
  (s.obtained.find? fun entry => entry.1 = i).map (·.2)

theorem State.noted_congr (h : s'.obtained = s.obtained) (i : Provider.Identity) :
    s'.noted i = s.noted i := by
  unfold noted
  rw [h]

theorem State.noted_afterNote_self : (s.afterNote p supply).noted p.identity = some supply := by
  simp [noted, afterNote]

theorem State.noted_afterNote_of_ne (h : i ≠ p.identity) :
    (s.afterNote p supply).noted i = s.noted i := by
  simp [noted, afterNote, h.symm]

theorem State.afterValue_of_isShared (h : p.lifetime.isShared = true) :
    s.afterValue p supply = s.afterNote p supply :=
  if_pos h

theorem State.exists_noted {entry : Provider.Identity × Supply} (h : entry ∈ s.obtained) :
    ∃ supply, s.noted entry.1 = some supply := by
  unfold noted
  cases hfind : s.obtained.find? fun other => other.1 = entry.1 with
  | some other => exact ⟨other.2, rfl⟩
  | none => exact absurd (List.find?_eq_none.mp hfind entry h) (by simp)

/-- An entry is known for an identity. -/
def Knows (known : List (Provider.Identity × Supply)) (i : Provider.Identity) : Prop :=
  ∃ entry ∈ known, entry.1 = i

theorem State.single_of_mem_singletons :
    ∀ entry ∈ s.singletons, entry.1.lifetime = .single :=
  fun _ hentry => of_decide_eq_true (List.mem_filter.mp hentry).2

/-- The singletons noted are handed to bodies. -/
theorem State.knows_singletons (h : s.noted i = some supply) (hsingle : i.lifetime = .single) :
    Knows s.singletons i := by
  obtain ⟨entry, hentry, -⟩ := Option.map_eq_some_iff.mp h
  have hi : entry.1 = i := by simpa using List.find?_some hentry
  exact ⟨entry, List.mem_filter.mpr ⟨List.mem_of_find?_eq_some hentry, by simp [hi, hsingle]⟩, hi⟩

/-- The value is there without a step of the plan: it is a parameter, or a delegate around. -/
def Scope.Gives (scope : Scope) : Provider.Identity → Prop
  | .parameter .. => True
  | .delegate ty => ∃ entry ∈ scope.around, entry.1 = .delegate ty
  | _ => False

/-- The value of an identity is noted as the supply, or it is there without a step of the plan. -/
def State.Has (s : State) (scope : Scope) (i : Provider.Identity) (supply : Supply) : Prop :=
  s.noted i = some supply ∨ scope.Gives i

theorem State.has_of_atHand (hshared : p.lifetime.isShared = true)
    (h : atHand scope p s.obtained = some supply) : s.Has scope p.identity supply := by
  rcases Option.or_eq_some_iff.mp h with h | ⟨-, h⟩
  · rw [if_pos hshared] at h
    exact .inl h
  · split at h
    · obtain ⟨entry, hentry, -⟩ := Option.map_eq_some_iff.mp h
      have hi : entry.1 = p.identity := by simpa using List.find?_some hentry
      have hmem := List.mem_of_find?_eq_some hentry
      right
      cases p <;> first | exact ⟨entry, hmem, hi⟩ | rename_i hdelegate; cases hdelegate
    · cases h

theorem State.noted_of_not_atHand (hshared : p.lifetime.isShared = true)
    (h : atHand scope p s.obtained = none) : s.noted p.identity = none := by
  have hnoted := (Option.or_eq_none_iff.mp h).1
  rwa [if_pos hshared] at hnoted

theorem Scope.not_gives {obtained : List (Provider.Identity × Supply)}
    (h : atHand scope p obtained = none) (hp : ¬ p.IsParameter) : ¬ scope.Gives p.identity := by
  have haround := (Option.or_eq_none_iff.mp h).2
  cases p with
  | parameter param name depth => exact absurd ⟨param, name, depth, rfl⟩ hp
  | delegate ty result params isAsync =>
      rw [if_pos (show (Provider.delegate ty result params isAsync).isDelegate = true from rfl),
        Option.map_eq_none_iff] at haround
      rintro ⟨entry, hentry, hi⟩
      exact List.find?_eq_none.mp haround entry hentry (decide_eq_true hi)
  | _ => exact id

/-- From one state to a later one nothing noted is forgotten, and new notes are only made for the
given identities. -/
structure Keeps (touches : Provider.Identity → Prop) (s s' : State) : Prop where
  numbered : s.numbered ≤ s'.numbered
  kept : ∀ i supply, s.noted i = some supply → s'.noted i = some supply
  untouched : ∀ i, ¬ touches i → s'.noted i = s.noted i

namespace Keeps

variable {touches wider : Provider.Identity → Prop}

theorem of_obtained (hnumbered : s.numbered ≤ s'.numbered) (hobtained : s'.obtained = s.obtained) :
    Keeps touches s s' :=
  ⟨hnumbered, fun i _ h => (State.noted_congr hobtained i).trans h,
    fun i _ => State.noted_congr hobtained i⟩

theorem refl (s : State) : Keeps touches s s :=
  .of_obtained le_rfl rfl

theorem afterName (s : State) : Keeps touches s s.afterName :=
  .of_obtained le_rfl rfl

theorem afterStep (s : State) (step : Step) : Keeps touches s (s.afterStep step) :=
  .of_obtained (Nat.le_succ _) rfl

theorem trans (h : Keeps touches s t) (h' : Keeps touches t u) : Keeps touches s u :=
  ⟨h.numbered.trans h'.numbered, fun i supply hi => h'.kept i supply (h.kept i supply hi),
    fun i hi => (h'.untouched i hi).trans (h.untouched i hi)⟩

theorem mono (h : Keeps touches s t) (hwider : ∀ i, touches i → wider i) : Keeps wider s t :=
  ⟨h.numbered, h.kept, fun i hi => h.untouched i fun htouches => hi (hwider i htouches)⟩

/-- A value is noted for which nothing was noted. -/
theorem afterNote (h : Keeps touches s t) (hnone : s.noted p.identity = none)
    (hp : touches p.identity) : Keeps touches s (t.afterNote p supply) := by
  refine ⟨h.numbered, fun i found hi => ?_, fun i hi => ?_⟩
  · rw [State.noted_afterNote_of_ne (by rintro rfl; rw [hnone] at hi; cases hi)]
    exact h.kept i found hi
  · rw [State.noted_afterNote_of_ne (by rintro rfl; exact hi hp)]
    exact h.untouched i hi

theorem has (h : Keeps touches s t) (hs : s.Has scope i supply) : t.Has scope i supply :=
  hs.imp_left (h.kept i supply)

end Keeps

/-! ### Where values are asked for -/

/-- Where a provider is asked for in a plan whose value is requested in `base`: at a place of the
unfolding. A singleton may be asked for ahead of the place where it is needed. -/
structure Placed (root : Place) (base env : Environment) (x : Place) (p : Provider) : Prop where
  catalog : env.catalog = base.catalog
  place : p.lifetime ≠ .single →
    env = base ∧ x.env = base ∧ root.Leads x ∧ x.request.provider? = some p

namespace Placed

variable {isTarget : Bool} {r : Request} {ty : Ty} {target : Provider}

/-- A singleton, asked for ahead. -/
theorem single (x : Place) (hp : p.lifetime = .single) (hcatalog : env.catalog = base.catalog) :
    Placed root base env x p :=
  ⟨hcatalog, fun h => absurd hp h⟩

theorem enter_eq (h : Placed root base env x p) : env.enter p = base.enter p := by
  by_cases hsingle : p.lifetime = .single
  · rw [env.enter_of_single hsingle, base.enter_of_single hsingle, Environment.root,
      Environment.root, h.catalog]
  · rw [(h.place hsingle).1]

/-- The dependencies of a created value are asked for in the same plan. -/
theorem request (h : Placed root base env x p) (hp : p.isCreated = true)
    (huses : usesAccessor scope isTarget p = false) (hscope : scope.accessorOf? = none)
    (hr : r ∈ (env.enter p).requests p) (hq : r.provider? = some q) :
    Placed root base (env.enter p) ⟨x.env.enter p, p.waits x.isAsync, r⟩ q := by
  refine ⟨(env.catalog_enter p).trans h.catalog, fun hqsingle => ?_⟩
  have hpsingle : p.lifetime ≠ .single := fun hsingle =>
    hqsingle (lifetime_of_not_usesAccessor hsingle huses hscope hr hq)
  obtain ⟨rfl, hxenv, hleads, hprovider⟩ := h.place hpsingle
  rw [← hxenv] at hr ⊢
  have hsame : x.env.enter p = x.env := by rw [enter_of_isCreated hp, if_neg hpsingle]
  exact ⟨hsame, hsame, hleads.tail (.intro hprovider hr), hq⟩

/-- The value of a body is asked for at a place of the unfolding, in a plan of its own. -/
theorem body (h : Placed root base env x p) (hp : p.HasBody ty)
    (hlookup : (env.enter p).lookup ty = some target) :
    ∃ y, Placed root (base.enter p) (env.enter p) y target := by
  obtain ⟨rfl, hxenv, hleads, hprovider⟩ := h.place hp.not_single
  rw [← hxenv] at hlookup ⊢
  exact ⟨_, rfl, fun _ => ⟨rfl, rfl, hleads.tail (.intro hprovider (hp.request_mem _)), hlookup⟩⟩

end Placed

/-- The identities that can be noted while the value of a provider at a place is obtained: its own,
and below it those of singletons and of what it leads to directly. Of a singleton only what it
forwards is noted. -/
inductive Touches (x : Place) (p : Provider) : Provider.Identity → Prop
  | self : Touches x p p.identity
  | forwarded {i : Provider.Identity} (hp : p.lifetime = .single) (hi : i.lifetime = .single)
      (hlt : sizeOf i < sizeOf p.identity) : Touches x p i
  | single {i : Provider.Identity} (hp : p.lifetime ≠ .single) (hi : i.lifetime = .single) :
      Touches x p i
  | direct {y : Place} {q : Provider} (hp : p.lifetime ≠ .single) (hleads : x.LeadsDirectly y)
      (hq : y.request.provider? = some q) : Touches x p q.identity

theorem Touches.single_of_single (h : Touches x p i) (hp : p.lifetime = .single) :
    i.lifetime = .single := by
  cases h with
  | self => rw [Provider.lifetime_identity, hp]
  | forwarded _ hi _ => exact hi
  | single hnot _ => exact absurd hp hnot
  | direct hnot _ _ => exact absurd hp hnot

/-- A singleton that leads to anything without an accessor forwards it. -/
theorem sizeOf_identity_lt {isTarget : Bool} {r : Request} (hsingle : p.lifetime = .single)
    (huses : usesAccessor scope isTarget p = false) (hscope : scope.accessorOf? = none)
    (hr : r ∈ env.requests p) (hq : r.provider? = some q) :
    sizeOf q.identity < sizeOf p.identity := by
  cases p with
  | held member => simp [Environment.requests] at hr
  | forwarded ty inner =>
      obtain rfl := List.mem_singleton.mp hr
      cases hq
      simp only [Provider.identity, Provider.Identity.forwarded.sizeOf_spec]
      omega
  | _ => simp [usesAccessor, hsingle, hscope] at huses

/-- Obtaining a dependency of a created value does not touch the value itself, since nothing leads
directly to its own identity. -/
theorem Touches.of_request (hacyclic : root.IsAcyclic) (hx : Placed root base env x p)
    (hp : p.isCreated = true) {isTarget : Bool} (huses : usesAccessor scope isTarget p = false)
    (hscope : scope.accessorOf? = none) {r : Request} (hr : r ∈ (env.enter p).requests p)
    (hq : r.provider? = some q) (h : Touches ⟨x.env.enter p, p.waits x.isAsync, r⟩ q i) :
    i ≠ p.identity ∧ Touches x p i := by
  by_cases hsingle : p.lifetime = .single
  -- A singleton that is created here forwards to another singleton, whose identity is a smaller term:
  -- so descends everything that is touched.
  · have hqsingle := lifetime_of_not_usesAccessor hsingle huses hscope hr hq
    have hi := h.single_of_single hqsingle
    have hlt : sizeOf i < sizeOf p.identity := by
      have hq' := sizeOf_identity_lt hsingle huses hscope hr hq
      cases h with
      | self => exact hq'
      | forwarded _ _ hlt => exact hlt.trans hq'
      | single hnot _ => exact absurd hqsingle hnot
      | direct hnot _ _ => exact absurd hqsingle hnot
    exact ⟨fun heq => absurd hlt (by rw [heq]; exact lt_irrefl _), .forwarded hsingle hi hlt⟩
  -- Anything else stands at a place below the root that leads directly to all that is touched. Were one
  -- of its identity among that, the unfolding would have a cycle there.
  · obtain ⟨rfl, hxenv, hleads, hprovider⟩ := hx.place hsingle
    rw [← hxenv] at hr
    have hdirect : x.LeadsDirectly ⟨x.env.enter p, p.waits x.isAsync, r⟩ := by
      refine .single ⟨fun p' hp' => ?_, .intro hprovider hr⟩
      cases hprovider.symm.trans hp'
      exact isDelegate_of_isCreated hp
    have hne : i.lifetime = .single → i ≠ p.identity := by
      rintro hi rfl
      rw [Provider.lifetime_identity] at hi
      exact hsingle hi
    -- Singletons that are touched have another lifetime; the rest is reached directly.
    cases h with
    | self =>
        exact ⟨(hacyclic x _ p q hleads hdirect hprovider hq).symm, .direct hsingle hdirect hq⟩
    | forwarded _ hi _ => exact ⟨hne hi, .single hsingle hi⟩
    | single _ hi => exact ⟨hne hi, .single hsingle hi⟩
    | @direct y q' _ hy hq' =>
        have hxy := hdirect.trans hy
        exact ⟨(hacyclic x y p q' hleads hxy hprovider hq').symm, .direct hsingle hxy hq'⟩

/-! ### The invariant -/

/-- What was used for a request: the value of its provider, if that is shared. -/
def State.Argues (s : State) (scope : Scope) (r : Request) (arg : Option String) : Prop :=
  ∀ q, r.provider? = some q → q.lifetime.isShared = true →
    ∃ supply, arg = some supply.name ∧ s.Has scope q.identity supply

theorem Keeps.argues {touches : Provider.Identity → Prop} {r : Request} {arg : Option String}
    (h : Keeps touches s t) (hs : s.Argues scope r arg) : t.Argues scope r arg :=
  fun q hq hshared => (hs q hq hshared).imp fun _ => And.imp_right h.has

/-- The steps so far share values: a shared value that was produced is noted, is produced by one
step, was not known before, and was used wherever it was asked for. -/
structure State.Shares (base : Environment) (scope : Scope)
    (known : List (Provider.Identity × Supply)) (s : State) : Prop where
  numbered : ∀ step ∈ treeOf s.steps, step.id < s.numbered
  inherited : ∀ entry ∈ known, entry.1.lifetime = .single ∧ ∃ supply, s.noted entry.1 = some supply
  distinct : (s.steps.filterMap Step.shared?).Nodup
  made : ∀ maker ∈ s.steps, ∀ i, maker.shared? = some i →
    ¬ Knows known i ∧ ¬ scope.Gives i ∧
      ∃ supply, s.noted i = some supply ∧ HandsOver s.steps maker supply.name
  arguments : ∀ step ∈ s.steps, ∀ name p args, step.statement = .create name p args →
    List.Forall₂ (s.Argues scope) ((base.enter p).requests p) args
  bodies : ∀ carrier ∈ s.steps, ∀ body p, carrier.statement.body? = some body →
    carrier.statement.provider? = some p → Plan.BodyShares base (Knows known) s.steps p body

namespace State.Shares

theorem start (h : ∀ entry ∈ known, entry.1.lifetime = .single) :
    (s.forBody known).Shares base scope known where
  numbered := fun _ hmem => by cases hmem
  inherited := fun entry hentry => ⟨h entry hentry, exists_noted hentry⟩
  distinct := List.nodup_nil
  made := fun _ hmem => by cases hmem
  arguments := fun _ hmem => by cases hmem
  bodies := fun _ hmem => by cases hmem

theorem body_lt (h : s.Shares base scope known) {carrier step : Step} {body : Plan}
    (hcarrier : carrier ∈ s.steps) (hbody : carrier.statement.body? = some body)
    (hstep : step ∈ body.tree) : step.id < s.numbered :=
  h.numbered step (mem_treeOf.mpr (.inr ⟨carrier, hcarrier, body, hbody, hstep⟩))

/-- Nothing is known or produced for an identity under which nothing is noted. -/
theorem fresh (h : s.Shares base scope known) (hnone : s.noted i = none) :
    ¬ Knows known i ∧ i ∉ s.steps.filterMap Step.shared? := by
  constructor
  · rintro ⟨entry, hentry, rfl⟩
    obtain ⟨-, supply, hsupply⟩ := h.inherited entry hentry
    cases hnone.symm.trans hsupply
  · intro hmem
    obtain ⟨maker, hmaker, hi⟩ := List.mem_filterMap.mp hmem
    obtain ⟨-, -, supply, hsupply, -⟩ := h.made maker hmaker i hi
    cases hnone.symm.trans hsupply

/-- Further steps share values too, where those they produce were not noted before and are noted now,
their arguments are at hand, and their bodies began with the singletons of the plan. -/
theorem extend {touches : Provider.Identity → Prop} {new : List Step} (h : s.Shares base scope known)
    (hkeeps : Keeps touches s s') (hsteps : s'.steps = s.steps ++ new)
    (hids : ∀ step ∈ new, s.numbered ≤ step.id ∧ step.id < s'.numbered)
    (hdistinct : (new.filterMap Step.shared?).Nodup)
    (hmade : ∀ maker ∈ new, ∀ i, maker.shared? = some i → s.noted i = none ∧ ¬ scope.Gives i ∧
      ∃ supply, s'.noted i = some supply ∧ HandsOver new maker supply.name)
    (harguments : ∀ step ∈ new, ∀ name p args, step.statement = .create name p args →
      List.Forall₂ (s.Argues scope) ((base.enter p).requests p) args)
    (hbodies : ∀ carrier ∈ new, ∀ body p, carrier.statement.body? = some body →
      carrier.statement.provider? = some p → (∀ step ∈ body.tree, step.id < s.numbered) ∧
        Plan.BodyShares base (Knows known) s.steps p body) : s'.Shares base scope known := by
  have hold : s.steps ⊆ s'.steps := by rw [hsteps]; exact List.subset_append_left _ _
  have hnew : new ⊆ s'.steps := by rw [hsteps]; exact List.subset_append_right _ _
  have hcases : ∀ step ∈ s'.steps, step ∈ s.steps ∨ step ∈ new := by simp [hsteps]
  -- The new steps have higher numbers than the bodies begun before.
  have hwider : ∀ {body : Plan} {p : Provider}, (∀ step ∈ body.tree, step.id < s.numbered) →
      Plan.BodyShares base (Knows known) s.steps p body →
        Plan.BodyShares base (Knows known) s'.steps p body := fun hlt hbody =>
    hbody.wider fun step hstep => (hcases step hstep).imp_right fun hmem inner hinner =>
      (hlt inner hinner).le.trans (hids step hmem).1
  -- Clause by clause, for a step that was there and for a new one: the invariant settles the first and
  -- a hypothesis the second. Only distinctness sets old steps against new ones: what an old step makes
  -- is noted or known, and what a new step makes was not.
  refine ⟨fun step hstep => ?_, fun entry hentry => ?_, ?_, fun maker hmaker i hi => ?_,
    fun step hstep name p args hcreate => ?_, fun carrier hcarrier body p hbody hp => ?_⟩
  · rw [hsteps, treeOf_append] at hstep
    rcases List.mem_append.mp hstep with hstep | hstep
    · exact (h.numbered step hstep).trans_le hkeeps.numbered
    · rcases mem_treeOf.mp hstep with hstep | ⟨carrier, hcarrier, body, hbody, hinner⟩
      · exact (hids step hstep).2
      · obtain ⟨p, hp⟩ := Statement.provider_of_body hbody
        exact ((hbodies carrier hcarrier body p hbody hp).1 step hinner).trans_le hkeeps.numbered
  · obtain ⟨hsingle, supply, hsupply⟩ := h.inherited entry hentry
    exact ⟨hsingle, supply, hkeeps.kept _ _ hsupply⟩
  · rw [hsteps, List.filterMap_append]
    refine List.Nodup.append h.distinct hdistinct fun i hi hi' => ?_
    obtain ⟨maker, hmaker, hshared⟩ := List.mem_filterMap.mp hi'
    exact (h.fresh (hmade maker hmaker i hshared).1).2 hi
  · rcases hcases maker hmaker with hmaker | hmaker
    · obtain ⟨hknown, hgives, supply, hsupply, hover⟩ := h.made maker hmaker i hi
      exact ⟨hknown, hgives, supply, hkeeps.kept i supply hsupply, hover.mono hold⟩
    · obtain ⟨hnone, hgives, supply, hsupply, hover⟩ := hmade maker hmaker i hi
      exact ⟨(h.fresh hnone).1, hgives, supply, hsupply, hover.mono hnew⟩
  · refine List.Forall₂.imp (fun r arg => hkeeps.argues) ?_
    rcases hcases step hstep with hstep | hstep
    · exact h.arguments step hstep name p args hcreate
    · exact harguments step hstep name p args hcreate
  · rcases hcases carrier hcarrier with hcarrier | hcarrier
    · exact hwider (fun step => h.body_lt hcarrier hbody) (h.bodies carrier hcarrier body p hbody hp)
    · obtain ⟨hlt, hshares⟩ := hbodies carrier hcarrier body p hbody hp
      exact hwider hlt hshares

/-- Only names, numbers and answers have changed. -/
theorem same (h : s.Shares base scope known) (hsteps : s'.steps = s.steps)
    (hnumbered : s.numbered ≤ s'.numbered) (hobtained : s'.obtained = s.obtained) :
    s'.Shares base scope known := by
  have hkeeps : Keeps (fun _ => False) s s' := .of_obtained hnumbered hobtained
  exact h.extend hkeeps (hsteps.trans (List.append_nil _).symm) (by simp) (by simp) (by simp)
    (by simp) (by simp)

theorem afterName (h : s.Shares base scope known) : s.afterName.Shares base scope known :=
  h.same rfl le_rfl rfl

/-- The body of a provider, begun now, knows what the plan has obtained. -/
theorem bodyShares (h : s.Shares base scope known) {body : Plan}
    (hbody : body.SharesOnce (base.enter p) (Knows s.singletons)) :
    Plan.BodyShares base (Knows known) s.steps p body := by
  refine .body hbody ?_ fun maker hmaker t _ _ i hi hsingle => ?_
  · rintro i ⟨entry, hentry, rfl⟩
    obtain ⟨hsingle, supply, hsupply⟩ := h.inherited entry hentry
    exact knows_singletons hsupply hsingle
  · obtain ⟨-, -, supply, hsupply, -⟩ := h.made maker hmaker i hi
    exact knows_singletons hsupply hsingle

/-- In the end, the steps make a plan that shares values, in any order. -/
theorem sharesOnce (h : s.Shares base scope known) {arranged : List Step} {name : String}
    (hperm : arranged.Perm s.steps) : Plan.SharesOnce base (Knows known) ⟨arranged, name⟩ := by
  have hmem : ∀ {step : Step}, step ∈ arranged → step ∈ s.steps := hperm.mem_iff.mp
  refine .plan ((hperm.filterMap _).nodup_iff.mpr h.distinct) (fun step hstep i hi => ?_)
    (fun maker hmaker i hi step hstep name p args hcreate => ?_)
    (fun carrier hcarrier body p hbody hp => ?_)
  · exact (h.made step (hmem hstep) i hi).1
  · obtain ⟨-, hgives, supply, hsupply, hover⟩ := h.made maker (hmem hmaker) i hi
    refine List.Forall₂.imp (fun r arg hargues q hq hidentity => ?_)
      (h.arguments step (hmem hstep) name p args hcreate)
    subst hidentity
    have hshared : q.lifetime.isShared = true := by
      rw [← Provider.lifetime_identity]
      exact Step.isShared_of_shared? hi
    obtain ⟨used, harg, hhas⟩ := hargues q hq hshared
    cases hsupply.symm.trans (hhas.resolve_right hgives)
    exact ⟨supply.name, harg, hover.mono hperm.symm.subset⟩
  · exact (h.bodies carrier (hmem hcarrier) body p hbody hp).wider fun step hstep => .inl (hmem hstep)

end State.Shares

/-! ### Further steps -/

/-- The steps that produce the value of a provider, which `name` holds in the end: one of them
creates it, from arguments or around a body, or asks for it. -/
structure Produces (p : Provider) (name : String) (args : Option (List (Option String)))
    (body : Option Plan) (new : List Step) (s s' : State) : Prop where
  steps : s'.steps = s.steps ++ new
  obtained : s'.obtained = s.obtained
  numbered : s'.numbered = s.numbered + new.length
  ids : new.map Step.id = List.range' s.numbered new.length
  produced : new.filterMap Step.produced? = [p]
  handsOver : ∀ maker ∈ new, maker.produced? = some p → HandsOver new maker name
  creates : ∀ step ∈ new, ∀ name q used, step.statement = .create name q used →
    q = p ∧ args = some used
  bodies : ∀ step ∈ new, ∀ inner, step.statement.body? = some inner →
    body = some inner ∧ step.statement.provider? = some p

theorem AsksAccessor.produces (h : AsksAccessor c scope env p s supply s') :
    ∃ new u, Produces p supply.name none none new s u ∧ s' = u.afterNote p supply := by
  cases h with
  | @sync answers t asking _ ht hasking =>
      refine ⟨[asking], t.afterStep asking, ?_, rfl⟩
      constructor <;> simp [ht, hasking, Step.produced?, Statement.body?]
      exact .own rfl rfl
  | @async answers t asking waiting _ ht hasking hwaiting =>
      refine ⟨[asking, waiting], (t.afterStep asking).afterStep waiting, ?_, rfl⟩
      constructor <;> simp [ht, hasking, hwaiting, Step.produced?, Statement.body?, List.range'_succ]
      exact .awaited rfl rfl (List.mem_cons_of_mem _ (List.mem_singleton_self _)) rfl rfl

theorem CreatesValue.produces {name : String} {args : List (Option String)} {needs : List Step}
    {step : Step} (h : CreatesValue scope env p name args needs s step s') :
    ∃ new, Produces p name (some args) none new s s' := by
  cases h with
  | plain hinit hasync hcreating =>
      refine ⟨[step], ?_⟩
      constructor <;> simp [hcreating, Step.produced?, Statement.body?]
      exact .own (by simp [Statement.holdsTask, hasync]) rfl
  | @awaited t creating _ hinit hasync ht hcreating hwaiting =>
      refine ⟨[creating, step], ?_⟩
      constructor <;>
        simp [ht, hcreating, hwaiting, Step.produced?, Statement.body?, List.range'_succ]
      exact .awaited (by simp [Statement.holdsTask, hasync, hinit]) rfl
        (List.mem_cons_of_mem _ (List.mem_singleton_self _)) rfl rfl
  | @initialized creating _ hinit hasync hcreating hstarting =>
      refine ⟨[creating, step], ?_⟩
      constructor <;> simp [hcreating, hstarting, Step.produced?, Statement.body?, List.range'_succ]
      exact .own (by simp [Statement.holdsTask, hasync]) rfl
  | @initializedAwaited t creating starting _ hinit hasync hcreating ht hstarting hwaiting =>
      refine ⟨[creating, starting, step], ?_⟩
      constructor <;>
        simp [ht, hcreating, hstarting, hwaiting, Step.produced?, Statement.body?, List.range'_succ]
      exact .own (by simp [Statement.holdsTask, hinit]) rfl

theorem EmitsDelegate.produces {name : String} {body : Plan} {needs : List Step} {step : Step}
    (h : EmitsDelegate scope p name body needs s step s') :
    ∃ new, Produces p name none (some body) new s s' := by
  cases h with
  | plain _ hcreating =>
      refine ⟨[step], ?_⟩
      constructor <;> simp [hcreating, Step.produced?, Statement.body?, Statement.provider?]
      exact .own rfl rfl
  | @registered drain opening _ _ hopening hcreating =>
      refine ⟨[opening, step], ?_⟩
      constructor <;>
        simp [hopening, hcreating, Step.produced?, Statement.body?, Statement.provider?,
          List.filterMap_cons, List.range'_succ]
      exact .own rfl rfl

theorem Produces.mem_ids {name : String} {args : Option (List (Option String))} {body : Option Plan}
    {new : List Step} (h : Produces p name args body new s s') :
    ∀ step ∈ new, s.numbered ≤ step.id ∧ step.id < s'.numbered := by
  intro step hstep
  have hid := List.mem_map_of_mem (f := Step.id) hstep
  rw [h.ids, List.mem_range'_1] at hid
  rwa [h.numbered]

/-- Of the steps that produce the value, one is under its identity. -/
theorem Produces.shared {name : String} {args : Option (List (Option String))} {body : Option Plan}
    {new : List Step} (h : Produces p name args body new s s') :
    (new.filterMap Step.shared?).Nodup ∧ ∀ maker ∈ new, ∀ i, maker.shared? = some i →
      i = p.identity ∧ p.lifetime.isShared = true ∧ HandsOver new maker name := by
  constructor
  · have hsplit : new.filterMap Step.shared? = [p].filterMap Provider.shared? := by
      rw [← h.produced, List.filterMap_filterMap]
      rfl
    rw [hsplit, List.filterMap_cons, List.filterMap_nil]
    split
    · exact List.nodup_nil
    · exact List.nodup_singleton _
  · intro maker hmaker i hi
    obtain ⟨q, hq, hshared⟩ := Option.bind_eq_some_iff.mp hi
    obtain ⟨hlifetime, rfl⟩ := Provider.shared?_eq_some.mp hshared
    have hp : q ∈ new.filterMap Step.produced? := List.mem_filterMap.mpr ⟨maker, hmaker, hq⟩
    rw [h.produced] at hp
    obtain rfl := List.mem_singleton.mp hp
    exact ⟨rfl, hlifetime, h.handsOver maker hmaker hq⟩

namespace State.Shares

/-- The value of a provider is produced, and noted if it is shared. From then on it is at hand, so that
its identity is not produced again in the plan. -/
theorem produce {name : String} {args : Option (List (Option String))} {body : Option Plan}
    {new : List Step} (h : s.Shares base scope known) (hproduces : Produces p name args body new s u)
    (hnone : p.lifetime.isShared = true → s.noted p.identity = none)
    (hgives : ¬ scope.Gives p.identity) (hname : supply.name = name)
    (hargs : ∀ used, args = some used →
      List.Forall₂ (s.Argues scope) ((base.enter p).requests p) used)
    (hbody : ∀ inner, body = some inner → (∀ step ∈ inner.tree, step.id < s.numbered) ∧
      Plan.BodyShares base (Knows known) s.steps p inner) :
    (u.afterValue p supply).Shares base scope known ∧
      Keeps (fun i => i = p.identity) s (u.afterValue p supply) ∧
      (p.lifetime.isShared = true → (u.afterValue p supply).noted p.identity = some supply) := by
  have hplain : Keeps (fun i => i = p.identity) s u :=
    .of_obtained (by rw [hproduces.numbered]; exact Nat.le_add_right _ _) hproduces.obtained
  have hkeeps : Keeps (fun i => i = p.identity) s (u.afterValue p supply) := by
    unfold State.afterValue
    split
    · rename_i hshared
      exact hplain.afterNote (hnone hshared) rfl
    · exact hplain
  have hnoted : p.lifetime.isShared = true →
      (u.afterValue p supply).noted p.identity = some supply := by
    intro hshared
    rw [State.afterValue_of_isShared hshared]
    exact State.noted_afterNote_self
  -- The value is noted after its steps are made, so that they meet it as not noted before and noted
  -- afterwards.
  obtain ⟨hnodup, hmakers⟩ := hproduces.shared
  refine ⟨h.extend hkeeps ((u.afterValue_steps p supply).trans hproduces.steps) ?_ hnodup ?_ ?_ ?_,
    hkeeps, hnoted⟩
  · rw [u.afterValue_numbered]
    exact hproduces.mem_ids
  · intro maker hmaker i hi
    obtain ⟨rfl, hshared, hover⟩ := hmakers maker hmaker i hi
    exact ⟨hnone hshared, hgives, supply, hnoted hshared, by rwa [hname]⟩
  · intro step hstep n q used hcreate
    obtain ⟨rfl, hused⟩ := hproduces.creates step hstep n q used hcreate
    exact hargs used hused
  · intro carrier hcarrier inner q hinner hq
    obtain ⟨hbodies, hp⟩ := hproduces.bodies carrier hcarrier inner hinner
    cases hp.symm.trans hq
    exact hbody inner hbodies

end State.Shares

/-! ### The parts of a derivation -/

theorem AsksAccessor.shares (h : AsksAccessor c scope env p s supply s')
    (hs : s.Shares base scope known) (hsingle : p.lifetime = .single)
    (hhand : atHand scope p s.obtained = none) :
    s'.Shares base scope known ∧ Keeps (fun i => i = p.identity) s s' ∧
      s'.noted p.identity = some supply := by
  have hshared : p.lifetime.isShared = true := by rw [hsingle]; rfl
  have hparameter : ¬ p.IsParameter := by
    rintro ⟨param, name, depth, rfl⟩
    cases hsingle
  obtain ⟨new, u, hproduces, rfl⟩ := h.produces
  obtain ⟨hs', hkeeps, hnoted⟩ := hs.produce hproduces
    (fun hshared => State.noted_of_not_atHand hshared hhand) (Scope.not_gives hhand hparameter)
    rfl (fun _ h => by cases h) (fun _ h => by cases h)
  rw [State.afterValue_of_isShared hshared] at hs' hkeeps hnoted
  exact ⟨hs', hkeeps, hnoted hshared⟩

/-- A delegate is created after its body, which was begun in the state `t`. -/
theorem EmitsDelegate.shares {name : String} {body : Plan} {needs : List Step} {step : Step}
    (h : EmitsDelegate scope p name body needs u step s') (ht : t.Shares base scope known)
    (hsteps : u.steps = t.steps) (hobtained : u.obtained = t.obtained)
    (hnumbered : t.numbered ≤ u.numbered)
    (hbody : body.SharesOnce (base.enter p) (Knows t.singletons))
    (hids : ∀ step ∈ body.tree, step.id < u.numbered) (hshared : p.lifetime.isShared = true)
    (hnone : t.noted p.identity = none) (hgives : ¬ scope.Gives p.identity) :
    (s'.afterNote p ⟨name, some step⟩).Shares base scope known ∧
      Keeps (fun i => i = p.identity) t (s'.afterNote p ⟨name, some step⟩) := by
  obtain ⟨new, hproduces⟩ := h.produces
  have hu : u.Shares base scope known := ht.same hsteps hnumbered hobtained
  have hkeeps : Keeps (fun i => i = p.identity) t u := .of_obtained hnumbered hobtained
  have hname : (Supply.mk name (some step)).name = name := rfl
  obtain ⟨hs', hkeeps', -⟩ := hu.produce hproduces
    (fun _ => (State.noted_congr hobtained _).trans hnone) hgives hname (fun _ h => by cases h)
    (fun inner hinner => by
      cases hinner
      exact ⟨hids, by rw [hsteps]; exact ht.bodyShares hbody⟩)
  rw [State.afterValue_of_isShared hshared] at hs' hkeeps'
  exact ⟨hs', hkeeps.trans hkeeps'⟩

theorem CreatesValue.shares {name : String} {args : List (Option String)} {needs : List Step}
    {step : Step} (h : CreatesValue scope env p name args needs s step s')
    (hs : s.Shares base scope known) (hnone : p.lifetime.isShared = true → s.noted p.identity = none)
    (hgives : ¬ scope.Gives p.identity)
    (hargs : List.Forall₂ (s.Argues scope) ((base.enter p).requests p) args) :
    (s'.afterValue p ⟨name, some step⟩).Shares base scope known ∧
      Keeps (fun i => i = p.identity) s (s'.afterValue p ⟨name, some step⟩) ∧
      (p.lifetime.isShared = true →
        (s'.afterValue p ⟨name, some step⟩).noted p.identity = some ⟨name, some step⟩) := by
  obtain ⟨new, hproduces⟩ := h.produces
  refine hs.produce hproduces hnone hgives rfl (fun used hused => ?_) fun _ h => by cases h
  cases hused
  exact hargs

/-- The function of an owned value is defined after its body, which was begun in the state `t`. -/
theorem State.Shares.define {body : Plan} {function : Supply} {name : String} {defining : Step}
    {isAsync : Bool} (ht : t.Shares base scope known) (hsteps : u.steps = t.steps)
    (hobtained : u.obtained = t.obtained) (hnumbered : t.numbered ≤ u.numbered)
    (hdefining : defining = u.draft scope (.ownedFunction name p isAsync body) none [])
    (hbody : body.SharesOnce (base.enter p) (Knows t.singletons))
    (hids : ∀ step ∈ body.tree, step.id < u.numbered) (hnone : t.noted p.identity = none) :
    ((u.afterStep defining).afterNote p function).Shares base scope known ∧
      Keeps (fun i => i = p.identity) t ((u.afterStep defining).afterNote p function) := by
  have hu : u.Shares base scope known := ht.same hsteps hnumbered hobtained
  have hkeeps : Keeps (fun i => i = p.identity) u ((u.afterStep defining).afterNote p function) :=
    Keeps.afterNote (.of_obtained (Nat.le_succ _) rfl)
      ((State.noted_congr hobtained _).trans hnone) rfl
  have hgrown : ((u.afterStep defining).afterNote p function).steps = u.steps ++ [defining] := rfl
  -- The function of an owned value is noted like a value, but each call makes a value of its own: the
  -- defining step makes nothing that is shared.
  have hproduced : defining.shared? = none := by rw [hdefining]; rfl
  refine ⟨hu.extend hkeeps hgrown ?_ ?_ ?_ ?_ ?_, .trans (.of_obtained hnumbered hobtained) hkeeps⟩
  · simp [hdefining, State.afterNote]
  · simp [hproduced]
  · simp [hproduced]
  · simp [hdefining]
  · simp only [List.mem_singleton]
    rintro carrier rfl inner q hinner hq
    rw [hdefining] at hinner hq
    cases hinner
    cases hq
    exact ⟨hids, by rw [hsteps]; exact ht.bodyShares hbody⟩

/-- The singletons ahead are asked for in the plan around, and touch nothing but singletons. -/
theorem Hoists.placed {isAsync : Bool} {ahead : List Provider}
    (h : Hoists c scope env p isAsync s ahead s') (hx : Placed root base env x p) :
    ∀ r ∈ ahead.map Environment.given, ∀ q, r.provider? = some q →
      ∃ y, Placed root base env y q ∧ ∀ i, Touches y q i → i.lifetime = .single := by
  refine forall_given fun q hq => ?_
  have hknows : env.Knows (fun _ => True) fun _ => True := .of_all fun _ => trivial
  have hsingle := (h.known hknows (.of_all fun _ => trivial) q hq).1
  exact ⟨x, .single x hsingle hx.catalog, fun i hi => hi.single_of_single hsingle⟩

/-- A step that produces no shared value and has no body. -/
theorem State.Shares.afterPlain (h : s.Shares base scope known) {statement : Statement}
    {release : Option Release} {needs : List Step} {step : Step}
    (hstep : step = s.draft scope statement release needs) (hproduced : step.produced? = none)
    (hbody : statement.body? = none) : (s.afterStep step).Shares base scope known := by
  have hkeeps : Keeps (fun _ => False) s (s.afterStep step) := .afterStep s step
  have hstatement : step.statement = statement := by rw [hstep]; rfl
  refine h.extend hkeeps rfl ?_ ?_ ?_ ?_ ?_
  · simp [hstep]
  · simp [Step.shared?, hproduced]
  · simp [Step.shared?, hproduced]
  · simp only [List.mem_singleton]
    rintro _ rfl name q args hcreate
    simp [Step.produced?, hcreate] at hproduced
  · simp [hstatement, hbody]

/-! ### Derivations -/

mutual

/-- Obtaining a value keeps the steps sharing values, and a shared value is there afterwards. What is
touched on the way are singletons, and identities that the value leads to directly: where nothing leads
directly to its own identity, no value is produced while it is being produced. -/
theorem Obtains.shares {c : Settings} {root : Place} (hacyclic : root.IsAcyclic) {x : Place}
    {base env : Environment} {scope : Scope} {known : List (Provider.Identity × Supply)}
    {isTarget : Bool} {p : Provider} {s s' : State} {supply : Supply} :
    Obtains c scope isTarget env p s supply s' → scope.accessorOf? = none →
      Placed root base env x p → s.Shares base scope known →
      s'.Shares base scope known ∧ Keeps (Touches x p) s s' ∧
        (p.lifetime.isShared = true → s'.Has scope p.identity supply)
  | .atHand hhand, _, _, hs => ⟨hs, .refl _, fun hshared => State.has_of_atHand hshared hhand⟩
  | .parameter _, _, _, hs => ⟨hs, .refl _, fun _ => .inr trivial⟩
  | .accessor hhand huses hasks, _, _, hs => by
      obtain ⟨hs', hkeeps, hnoted⟩ := hasks.shares hs (lifetime_of_usesAccessor huses) hhand
      exact ⟨hs', hkeeps.mono fun i hi => hi ▸ .self, fun _ => .inl hnoted⟩
  | .delegate hp hhand _ hhoists heach hlookup hbody hemits, hscope, hx, hs => by
      have hbodied := Provider.HasBody.delegate hp
      have hshared : p.lifetime.isShared = true := by rw [hp]; rfl
      -- Ahead of the body only singletons are obtained, which leave the delegate's own identity alone:
      -- when its step is made the delegate is still not noted. The body starts with the singletons of
      -- the plan, and what it produces belongs to it.
      have hparameter : ¬ p.IsParameter := by
        rintro ⟨param, name, depth, rfl⟩
        cases hp
      obtain ⟨hsteps₁, hnumbered₁, hobtained₁⟩ := hhoists.same
      obtain ⟨ht, hkeeps, -⟩ := heach.shares hacyclic hscope (hhoists.placed hx)
        (hs.same hsteps₁ hnumbered₁.ge hobtained₁)
      have hkeeps₁ : Keeps (fun i => i.lifetime = .single) s _ :=
        .trans (.of_obtained hnumbered₁.ge hobtained₁) hkeeps
      obtain ⟨y, hy⟩ := hx.body hbodied hlookup
      obtain ⟨hplan, hnumbered, hids⟩ :=
        hbody.shares hacyclic rfl hy State.single_of_mem_singletons
      have hidentity : p.identity.lifetime ≠ .single :=
        Provider.lifetime_identity p ▸ hbodied.not_single
      have hnone := (hkeeps₁.untouched p.identity hidentity).trans
        (State.noted_of_not_atHand hshared hhand)
      obtain ⟨hs', hkeeps'⟩ := hemits.shares ht hbody.same.1 hbody.same.2 hnumbered hplan hids hshared
        hnone (Scope.not_gives hhand hparameter)
      exact ⟨hs', (hkeeps₁.mono fun i hi => .single hbodied.not_single hi).trans
        (hkeeps'.mono fun i hi => hi ▸ .self), fun _ => .inl State.noted_afterNote_self⟩
  | .ownedAgain hp _ ht hnoted hstep, _, _, hs => by
      have hshared : ¬ p.lifetime.isShared = true := by rw [hp]; exact Bool.false_ne_true
      -- One more call of a function that is noted, and no shared value.
      subst ht
      exact ⟨hs.afterName.afterPlain hstep (by rw [hstep]; rfl) rfl,
        (Keeps.afterName s).trans (.afterStep _ _), fun h => absurd h hshared⟩
  | .owned (t := t) hp _ ht hnoted hlookup hbody hdefining _ hv hstep, _, hx, hs => by
      have hshared : ¬ p.lifetime.isShared = true := by rw [hp]; exact Bool.false_ne_true
      have ht' : t.Shares base scope known := ht ▸ hs.afterName
      have hstart : Keeps (Touches x p) s t := ht ▸ Keeps.afterName s
      obtain ⟨y, hy⟩ := hx.body (.owned hp) hlookup
      obtain ⟨hplan, hnumbered, hids⟩ :=
        hbody.shares hacyclic rfl hy State.single_of_mem_singletons
      obtain ⟨hv', hkeeps⟩ := ht'.define (u := State.afterName _) hbody.same.1 hbody.same.2 hnumbered
        hdefining hplan hids hnoted
      rw [← hv] at hv' hkeeps
      exact ⟨hv'.afterPlain hstep (by rw [hstep]; rfl) rfl,
        (hstart.trans (hkeeps.mono fun i hi => hi ▸ .self)).trans (.afterStep _ _),
        fun h => absurd h hshared⟩
  | .value hp hhand huses _ heach hcreates, hscope, hx, hs => by
      have hparameter : ¬ p.IsParameter := by
        rintro ⟨param, name, depth, rfl⟩
        cases hp
      -- Obtaining the dependencies does not touch the value itself.
      have hbelow : ∀ r ∈ (env.enter p).requests p, ∀ q, r.provider? = some q →
          ∃ y, Placed root base (env.enter p) y q ∧
            ∀ i, Touches y q i → i ≠ p.identity ∧ Touches x p i := fun r hr q hq =>
        ⟨_, hx.request hp huses hscope hr hq, fun i =>
          Touches.of_request hacyclic hx hp huses hscope hr hq⟩
      obtain ⟨ht, hkeeps, hargs⟩ := heach.shares hacyclic hscope hbelow hs.afterName
      have hnone : p.lifetime.isShared = true → _ := fun hshared =>
        (hkeeps.untouched p.identity (by simp)).trans (State.noted_of_not_atHand hshared hhand)
      rw [hx.enter_eq] at hargs
      obtain ⟨hs', hkeeps', hnoted⟩ :=
        hcreates.shares ht hnone (Scope.not_gives hhand hparameter) hargs
      exact ⟨hs', ((Keeps.afterName s).trans (hkeeps.mono fun i hi => hi.2)).trans
        (hkeeps'.mono fun i hi => hi ▸ .self), fun hshared => .inl (hnoted hshared)⟩

/-- Obtaining several values keeps the steps sharing values, and they are what was asked for. -/
theorem ObtainsEach.shares {c : Settings} {root : Place} (hacyclic : root.IsAcyclic)
    {base env : Environment} {scope : Scope} {known : List (Provider.Identity × Supply)}
    {touches : Provider.Identity → Prop} {requests : List Request} {s s' : State}
    {supplies : List (Option Supply)} :
    ObtainsEach c scope env requests s supplies s' → scope.accessorOf? = none →
      (∀ r ∈ requests, ∀ q, r.provider? = some q →
        ∃ x, Placed root base env x q ∧ ∀ i, Touches x q i → touches i) →
      s.Shares base scope known →
      s'.Shares base scope known ∧ Keeps touches s s' ∧
        List.Forall₂ (s'.Argues scope) requests (namesOf supplies)
  | .nil, _, _, hs => ⟨hs, .refl _, .nil⟩
  | .supplied hprovider head tail, hscope, hx, hs => by
      obtain ⟨x, hplaced, htouches⟩ := hx _ List.mem_cons_self _ hprovider
      obtain ⟨ht, hkeeps, hhas⟩ := head.shares hacyclic hscope hplaced hs
      obtain ⟨hs', hkeeps', hargs⟩ :=
        tail.shares hacyclic hscope (fun r hr => hx r (List.mem_cons_of_mem _ hr)) ht
      refine ⟨hs', (hkeeps.mono htouches).trans hkeeps', .cons (fun q hq hshared => ?_) hargs⟩
      cases hprovider.symm.trans hq
      exact ⟨_, rfl, hkeeps'.has (hhas hshared)⟩
  | .leftOut hprovider _ tail, hscope, hx, hs => by
      obtain ⟨hs', hkeeps, hargs⟩ :=
        tail.shares hacyclic hscope (fun r hr => hx r (List.mem_cons_of_mem _ hr)) hs
      refine ⟨hs', hkeeps, .cons (fun q hq _ => ?_) hargs⟩
      cases hprovider.symm.trans hq

/-- The plan of a body shares values, and its steps have lower numbers than those made later. -/
theorem Assembles.shares {c : Settings} {root : Place} (hacyclic : root.IsAcyclic) {x : Place}
    {base env : Environment} {scope : Scope} {known : List (Provider.Identity × Supply)}
    {target : Provider} {s s' : State} {plan : Plan} :
    Assembles c scope env target known s plan s' → scope.accessorOf? = none →
      Placed root base env x target → (∀ entry ∈ known, entry.1.lifetime = .single) →
      plan.SharesOnce base (Knows known) ∧ s.numbered ≤ s'.numbered ∧
        ∀ step ∈ plan.tree, step.id < s'.numbered
  | .body hobtains harranges, hscope, hx, hknown => by
      obtain ⟨ht, hkeeps, -⟩ := hobtains.shares hacyclic hscope hx (.start hknown)
      refine ⟨ht.sharesOnce harranges.perm, hkeeps.numbered, fun step hstep => ?_⟩
      rw [Plan.tree_eq] at hstep
      exact ht.numbered step ((treeOf_perm harranges.perm).mem_iff.mp hstep)

end

end Assembly

/-- Where no provider leads to one of its own identity but through a delegate, the value of a shared
provider is produced once in a plan, and once in each body. Its variable is used wherever it is asked
for there, and a body uses the singletons that were obtained around it before. -/
theorem planResolution_shares (config : Config) (trigger : Trigger) (env : Environment)
    (isAsync : Bool) (target : Provider) (plan : Plan)
    (h : planResolution config trigger env isAsync target = .ok plan)
    (hacyclic : Place.IsAcyclic ⟨env, isAsync, Environment.given target⟩) :
    ∀ around nested, plan.Within around nested →
      nested.ProducesOnce (env.within around) around := by
  intro around nested hwithin
  unfold planResolution at h
  obtain ⟨s, hassembles⟩ := Assembly.run_sound h
  have hx : Assembly.Placed ⟨env, isAsync, Environment.given target⟩ env env _ target :=
    ⟨rfl, fun _ => ⟨rfl, rfl, .refl, rfl⟩⟩
  obtain ⟨hshares, -⟩ := hassembles.shares hacyclic rfl hx fun _ hmem => by cases hmem
  exact hshares.producesOnce hwithin

/-- A value and a singleton that suspends, needed directly, by a dependency and in a delegate's body:
the body produces the value anew and uses the singleton obtained around it. -/
theorem planResolution_shares_nested :
    let a : Ty := .plain "A"
    let b : Ty := .plain "B"
    let v : Ty := .plain "V"
    let w : Ty := .plain "W"
    let r : Ty := .plain "R"
    let needs (tys : List Ty) : List Parameter := tys.map fun ty => ⟨"", 0, ty, false⟩
    let env := ((({} : Declarations).addConstructor (.new w []) .single { isAsync := true })
      |>.addConstructor (.new v []) .resolution {}
      |>.addConstructor (.new a (needs [v, w])) .resolution {}
      |>.addConstructor (.new b (needs [w, v])) .resolution {}
      |>.addConstructor (.new r (needs [a, v, .delegate [] b false, w])) .resolution {}).build
    ∃ target plan, env.lookup r = some target ∧
      planResolution {} .never env true target = .ok plan ∧
      Place.IsAcyclic ⟨env, true, Environment.given target⟩ ∧
      plan.tree.map (fun step => (step.id, step.shared?)) =
        [(1, some (.construct w .single)), (0, some (.construct v .resolution)), (2, none),
          (3, some (.construct a .resolution)), (6, some (.delegate (.delegate [] b false))),
          (4, some (.construct v .resolution)), (5, some (.construct b .resolution)),
          (7, some (.construct r .resolution))] ∧
      ∀ around nested, plan.Within around nested →
        nested.ProducesOnce (env.within around) around := by
  intro a b v w r needs env
  have hproduced : ((env.lookup r).bind fun target =>
      (planResolution {} .never env true target).toOption).map
        (fun plan => plan.tree.map fun step => (step.id, step.shared?)) =
      some [(1, some (.construct w .single)), (0, some (.construct v .resolution)), (2, none),
        (3, some (.construct a .resolution)), (6, some (.delegate (.delegate [] b false))),
        (4, some (.construct v .resolution)), (5, some (.construct b .resolution)),
        (7, some (.construct r .resolution))] := by cbv
  have hends : (env.lookup r).all
      (fun target => Place.endsWithin 8 ⟨env, true, Environment.given target⟩) = true := by cbv
  have hrepeats : (env.lookup r).all (fun target =>
      !(Place.unfold 8 ⟨env, true, Environment.given target⟩).any (Place.repeatsWithin 8)) = true := by
    cbv
  obtain ⟨plan, hplan, hproduced⟩ := Option.map_eq_some_iff.mp hproduced
  obtain ⟨target, hlookup, hok⟩ := Option.bind_eq_some_iff.mp hplan
  have hok := Run.ok_of_toOption hok
  rw [hlookup, Option.all_some] at hends hrepeats
  have hacyclic : Place.IsAcyclic ⟨env, true, Environment.given target⟩ :=
    .of_unfold 8 hends (by simpa using hrepeats)
  exact ⟨target, plan, hlookup, hok, hacyclic, hproduced,
    planResolution_shares _ _ _ _ _ _ hok hacyclic⟩

end Wiring
