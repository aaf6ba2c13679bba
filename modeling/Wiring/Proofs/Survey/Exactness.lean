import Wiring.Proofs.Survey.Exploration
import Wiring.Proofs.Survey.Suspension

/-!
# The survey of suspension is exact

Producing a value suspends when something that takes waiting for is needed for it, outside the bodies
of asynchronous delegates. The survey finds out exactly that, and so does the memory of answers, which
goes by identity: providers of one identity are alike.

* `Provider.Suspends` — producing the value suspends, read off the unfolding.
* `Catalog.Hosts` — the providers met in a container: alike if of one identity, and closed below
  singletons.
* `suspends_exact`, `suspendsWith_exact` — the survey and its memory tell `Suspends`.
* `singletonsAhead_exact` — the singletons found below a delegate are needed there and suspend.
* `sound_of_suspends` — what is sound for a singleton where waiting is possible or where it is not
  is sound in its accessor.
-/

namespace Wiring

/-- A provider already at hand, requested from the container. -/
def Place.ofProvider (catalog : Catalog) (isAsync : Bool) (p : Provider) : Place :=
  ⟨.ofCatalog catalog, isAsync, Environment.given p⟩

/-- Not an asynchronous delegate, whose body waits for itself. -/
def Provider.IsFollowed (p : Provider) : Prop := ¬ (p.isDelegate = true ∧ p.isAsync = true)

/-- Producing the value of a provider suspends. -/
def Provider.Suspends (catalog : Catalog) (p : Provider) : Prop :=
  ∃ x, (Place.ofProvider catalog false p).LeadsThrough IsFollowed x ∧
    ∃ q, x.request.provider? = some q ∧ q.isAsync = true ∧ q.isDelegate = false

/-- The providers met in a container: those of one identity are alike, and what lies below a
singleton among them is among them. -/
structure Catalog.Hosts (catalog : Catalog) (among : Provider → Prop) : Prop where
  coherent : Coherent among
  single : ∀ p, among p → p.lifetime = .single → (Place.ofProvider catalog false p).Within among

/-! ### Singletons -/

namespace Place

variable {catalog : Catalog} {x y : Place} {p : Provider} {passes : Provider → Prop}

theorem Within.of_isAsync {among : Provider → Prop} (h : x.Within among) (isAsync : Bool) :
    (Place.mk x.env isAsync x.request).Within among := by
  intro y hy p hp
  obtain ⟨isAsync', hleads⟩ := (leadsThrough_true hy).of_isAsync x.isAsync
  exact h _ hleads.leads p hp

/-- What lies below a singleton does not depend on where it is met. -/
theorem next_of_single (hp : x.request.provider? = some p) (hsingle : p.lifetime = .single)
    (hcatalog : x.env.catalog = catalog) (h : (ofProvider catalog x.isAsync p).Next y) :
    x.Next y := by
  obtain ⟨hprovider, hr⟩ := h
  cases hprovider
  rename_i r
  have henv : (Environment.ofCatalog catalog).enter p = x.env.enter p := by
    rw [Environment.enter_of_single _ hsingle, Environment.enter_of_single _ hsingle,
      Environment.root, Environment.root, hcatalog]
    rfl
  change r ∈ ((Environment.ofCatalog catalog).enter p).requests p at hr
  change x.Next ⟨(Environment.ofCatalog catalog).enter p, p.waits x.isAsync, r⟩
  rw [henv] at hr ⊢
  exact .intro hp hr

/-- A place with the same provider and the same dependencies leads to nothing else. -/
theorem leadsThrough_of_next {x' : Place} (hp : x.request.provider? = x'.request.provider?)
    (hnext : ∀ y, x'.Next y → x.Next y) (h : x'.LeadsThrough passes y) :
    y = x' ∨ x.LeadsThrough passes y := by
  rcases Relation.ReflTransGen.cases_head h with rfl | ⟨z, ⟨hpass, hstep⟩, hzy⟩
  · exact .inl rfl
  · exact .inr (.head ⟨fun q hq => hpass q (hp ▸ hq), hnext z hstep⟩ hzy)

/-- A place with the same provider and no further dependencies has nothing else below it. -/
theorem Within.of_next {among : Provider → Prop} {x x' : Place} (h : x.Within among)
    (hp : x.request.provider? = x'.request.provider?) (hnext : ∀ y, x'.Next y → x.Next y) :
    x'.Within among := by
  intro y hy q hq
  rcases leadsThrough_of_next hp hnext (leadsThrough_true hy) with rfl | hleads
  · exact h.provider (hp.trans hq)
  · exact h y hleads.leads q hq

/-- What is below a request is below the request of the provider that satisfies it. -/
theorem Within.given {among : Provider → Prop} {x : Place} {p : Provider} (h : x.Within among)
    (hp : x.request.provider? = some p) :
    (Place.mk x.env x.isAsync (Environment.given p)).Within among := by
  refine h.of_next hp fun y hy => ?_
  obtain ⟨hprovider, hr⟩ := hy
  cases hprovider
  exact .intro hp hr

/-- What lies below a singleton does not depend on where in the container it is met. -/
theorem Within.of_env {among : Provider → Prop} {env env' : Environment} {isAsync : Bool}
    (h : (Place.mk env isAsync (Environment.given p)).Within among) (hsingle : p.lifetime = .single)
    (hcatalog : env'.catalog = env.catalog) :
    (Place.mk env' isAsync (Environment.given p)).Within among := by
  refine h.of_next rfl fun y hy => ?_
  obtain ⟨hprovider, hr⟩ := hy
  cases hprovider
  have henter : env'.enter p = env.enter p := by
    rw [env'.enter_of_single hsingle, env.enter_of_single hsingle, Environment.root,
      Environment.root, hcatalog]
  rw [henter] at hr ⊢
  exact .intro rfl hr

theorem leadsThrough_of_single (hp : x.request.provider? = some p) (hsingle : p.lifetime = .single)
    (hcatalog : x.env.catalog = catalog)
    (h : (ofProvider catalog x.isAsync p).LeadsThrough passes y) :
    y = ofProvider catalog x.isAsync p ∨ x.LeadsThrough passes y :=
  leadsThrough_of_next hp (fun _ => next_of_single hp hsingle hcatalog) h

/-- A singleton met at a place that is sound all the way down is sound all the way down from the
container. -/
theorem sound_of_single (hp : x.request.provider? = some p) (hsingle : p.lifetime = .single)
    (hcatalog : x.env.catalog = catalog) (hsound : ∀ y, x.Leads y → y.IsSound) :
    ∀ y, (ofProvider catalog x.isAsync p).Leads y → y.IsSound := by
  intro y hy
  rcases leadsThrough_of_single hp hsingle hcatalog (leadsThrough_true hy) with rfl | hleads
  · have := hsound x .refl
    unfold IsSound at this ⊢
    rw [hp] at this
    exact this
  · exact hsound y hleads.leads

/-- Where nothing can wait and everything is sound, nothing can wait further down either, up to the
bodies of asynchronous delegates. -/
theorem isAsync_of_sound (hsync : x.isAsync = false) (hsound : ∀ y, x.Leads y → y.IsSound)
    (h : x.LeadsThrough Provider.IsFollowed y) : y.isAsync = false := by
  induction h with
  | refl => exact hsync
  | @tail b c hxb hstep ih =>
      obtain ⟨hpass, hprovider, -⟩ := hstep
      rename_i p r
      have hb := hsound b (LeadsThrough.leads hxb)
      unfold IsSound at hb
      simp only [hprovider, ih, Bool.false_eq_true, false_or] at hb
      -- What suspends here, where nothing can wait, is an asynchronous delegate: not followed.
      have hasync : p.isAsync = false := by
        cases hasync : p.isAsync with
        | false => rfl
        | true => exact absurd ⟨hb hasync, hasync⟩ (hpass p hprovider)
      change p.waits b.isAsync = false
      rw [Provider.waits_eq, hasync, ih, ite_self]

/-- Where nothing can wait and everything is sound, no singleton suspends. -/
theorem not_suspends_of_sound (hp : x.request.provider? = some p) (hsingle : p.lifetime = .single)
    (hcatalog : x.env.catalog = catalog) (hsync : x.isAsync = false)
    (hsound : ∀ y, x.Leads y → y.IsSound) : ¬ p.Suspends catalog := by
  rintro ⟨y, hy, q, hq, hasync, hdelegate⟩
  have hsound' := sound_of_single hp hsingle hcatalog hsound
  rw [hsync] at hsound'
  have hysound := hsound' y hy.leads
  have hysync := isAsync_of_sound rfl hsound' hy
  unfold IsSound at hysound
  simp [hq, hasync, hysync, hdelegate] at hysound

/-- A singleton that is sound where waiting is possible, or where it is not, is sound where waiting is
possible exactly if it suspends. This is the mode in which its accessor is planned. -/
theorem sound_of_suspends {isAsync answer : Bool} (hsingle : p.lifetime = .single)
    (hsound : ∀ x, (ofProvider catalog isAsync p).Leads x → x.IsSound)
    (hanswer : answer = true ↔ p.Suspends catalog) :
    ∀ x, (ofProvider catalog answer p).Leads x → x.IsSound := by
  by_cases hsame : answer = isAsync
  · rw [hsame]
    exact hsound
  cases answer with
  | true =>
      -- Then it does not wait where it is sound, so it cannot suspend.
      obtain rfl : isAsync = false := by cases isAsync <;> simp_all
      exact absurd (hanswer.mp rfl) (not_suspends_of_sound (x := ofProvider catalog false p) rfl
        hsingle rfl rfl hsound)
  | false =>
      obtain rfl : isAsync = true := by cases isAsync <;> simp_all
      -- Up to asynchronous delegates nothing suspends; their bodies are those of the sound place.
      have hreached : ∀ x, (ofProvider catalog false p).Leads x →
          (ofProvider catalog false p).LeadsThrough Provider.IsFollowed x ∨
            (ofProvider catalog true p).Leads x := by
        intro x hx
        induction hx with
        | refl => exact .inl .refl
        | @tail b c _ hstep ih =>
            rcases ih with hfollowed | hsounded
            · obtain ⟨hprovider, hr⟩ := id hstep
              rename_i q r
              by_cases hdelegate : q.isDelegate = true ∧ q.isAsync = true
              · right
                obtain ⟨isAsync, hleads⟩ := hfollowed.of_isAsync true
                have hwaits : q.waits b.isAsync = q.waits isAsync := by
                  obtain ⟨ty, result, params, own, rfl⟩ := Provider.eq_delegate hdelegate.1
                  rfl
                rw [hwaits]
                exact hleads.leads.tail (.intro hprovider hr)
              · refine .inl (hfollowed.tail ⟨fun q' hq' => ?_, hstep⟩)
                cases hprovider.symm.trans hq'
                exact hdelegate
            · exact .inr (hsounded.tail hstep)
      intro x hx
      -- Up to asynchronous delegates only whether something suspends counts, and nothing does.
      rcases hreached x hx with hfollowed | hsounded
      · obtain ⟨isAsync, hleads⟩ := hfollowed.of_isAsync true
        have hother := hsound _ hleads.leads
        unfold IsSound at hother ⊢
        cases hq : x.request.provider? with
        | none => simpa [hq] using hother
        | some q =>
            intro hasync
            cases hdelegate : q.isDelegate with
            | true => exact .inr rfl
            | false => cases hanswer.mpr ⟨x, hfollowed, q, hq, hasync, hdelegate⟩
      · exact hsound x hsounded

end Place

/-- Of two singletons that are alike, both suspend or neither does. -/
theorem Provider.Alike.suspends {catalog : Catalog} {among : Provider → Prop} {p q : Provider}
    (hhosts : catalog.Hosts among) (h : p.Alike q) (hp : among p) (hq : among q)
    (hsingle : p.lifetime = .single) (hsuspends : p.Suspends catalog) : q.Suspends catalog := by
  obtain ⟨x, hx, r, hr, hasync, hdelegate⟩ := hsuspends
  have hpwithin := hhosts.single p hp hsingle
  have hqwithin := hhosts.single q hq (h.lifetime ▸ hsingle)
  have hmirrors : (Place.ofProvider catalog false p).Mirrors false (.ofProvider catalog false q) :=
    ⟨.refl _, fun _ => rfl, rfl, .inl (congrArg some h.identity)⟩
  have hpasses : Place.Agrees Provider.IsFollowed := fun p q halike hfollowed => by
    rwa [Provider.IsFollowed, ← halike.isDelegate, ← halike.isAsync]
  obtain ⟨x', hx', hxx'⟩ := hmirrors.leads hhosts.coherent hpasses hpwithin hqwithin hx
  obtain ⟨r', hr', halike⟩ := hxx'.alike hhosts.coherent (hpwithin.leads hx.leads)
    (hqwithin.leads hx'.leads) hr (by rintro ⟨_, _, _, rfl⟩; cases hasync)
  exact ⟨x', hx', r', hr', halike.isAsync ▸ hasync, halike.isDelegate ▸ hdelegate⟩

namespace Survey

/-- What the survey of suspension makes sure of when it finds nothing. -/
def calm : Inquiry where
  tracked := false
  allowsAbsent _ := True
  admits _ p := p.isAsync = true → p.isDelegate = true
  passes := Provider.IsFollowed
  admits_parameter := by
    rintro _ _ ⟨_, _, _, rfl⟩ hasync
    cases hasync
  admits_alike := by
    intro p q _ _ halike _ h hasync
    rw [halike.isDelegate]
    exact h (halike.isAsync ▸ hasync)
  passes_alike p q halike h := by rwa [Provider.IsFollowed, ← halike.isDelegate, ← halike.isAsync]

theorem suspension_judges (maxDepth : Nat) (trigger : Trigger) :
    Judges (suspension maxDepth trigger) calm fun found => found = false where
  tracked := rfl
  absent _ := trivial
  settled _ hsettled hclean := by
    rw [show (suspension maxDepth trigger).isSettled = id from rfl] at hsettled
    exact absurd (hsettled.symm.trans hclean) (by simp)
  before p found goOn after hjudge hclean := by
    rcases suspension_judge hjudge with ⟨-, -, -, heq⟩ | ⟨-, -, -, heq⟩ | ⟨-, -, heq⟩
    · rwa [← heq]
    · exact absurd (heq.symm.trans hclean) (by simp)
    · rwa [← heq]
  admits p found goOn after isAsync hjudge hclean hasync := by
    rcases suspension_judge hjudge with ⟨hdelegate, -, -, -⟩ | ⟨-, -, -, heq⟩ | ⟨hsync, -, -⟩
    · exact hdelegate
    · exact absurd (heq.symm.trans hclean) (by simp)
    · exact absurd (hasync.symm.trans hsync) (by simp)
  goesOn p found after hjudge hclean hpasses := by
    rcases suspension_judge hjudge with ⟨hdelegate, hasync, -, -⟩ | ⟨-, -, -, heq⟩ | ⟨-, hgoOn, -⟩
    · exact hpasses ⟨hdelegate, hasync⟩
    · exact absurd (heq.symm.trans hclean) (by simp)
    · cases hgoOn

variable {maxDepth : Nat} {trigger : Trigger} {env : Environment} {p : Provider}
  {among : Provider → Prop} {answer : Bool} {answers answers' : Answers}

/-- What the survey finds is there: if it answers that a value suspends, its provider or something it
needs is asynchronous, and no asynchronous delegate stands in between. -/
theorem suspends_of_answer (h : suspends maxDepth trigger env p = .ok true) :
    p.Suspends env.catalog := by
  obtain ⟨entered, hvisits⟩ := run_sound h
  refine hvisits.invariant
    (P := fun env' r => ∃ isAsync, (Place.ofProvider env.catalog false p).LeadsThrough
      Provider.IsFollowed ⟨env', isAsync, r⟩)
    (I := fun found => found = true → p.Suspends env.catalog) ?_ ?_ ⟨false, .refl⟩ (by simp) rfl
  · rintro env' r q found after ⟨isAsync, hleads⟩ hq hjudge below hbelow
    refine ⟨q.waits isAsync, hleads.tail ⟨fun q' hq' => ?_, .intro hq hbelow⟩⟩
    cases hq.symm.trans hq'
    rcases suspension_judge hjudge with ⟨-, -, hgoOn, -⟩ | ⟨-, -, hgoOn, -⟩ | ⟨hasync, -, -⟩
    · cases hgoOn
    · cases hgoOn
    · exact fun hdeferred => absurd (hdeferred.2.symm.trans hasync) (by simp)
  · rintro env' r q found goOn after ⟨isAsync, hleads⟩ hq hfound hjudge hafter
    rcases suspension_judge hjudge with ⟨-, -, -, rfl⟩ | ⟨hdelegate, hasync, -, -⟩ | ⟨-, -, rfl⟩
    · exact hfound hafter
    · exact ⟨_, hleads, q, hq, hasync, hdelegate⟩
    · exact hfound hafter

/-- The survey tells exactly whether producing a value suspends. -/
theorem suspends_exact (hcoherent : Coherent among)
    (hwithin : (Place.ofProvider env.catalog false p).Within among)
    (h : suspends maxDepth trigger env p = .ok answer) :
    answer = true ↔ p.Suspends env.catalog := by
  cases answer with
  | true => exact iff_of_true rfl (suspends_of_answer h)
  | false =>
      refine iff_of_false (by simp) ?_
      rintro ⟨x, hx, q, hq, hasync, hdelegate⟩
      have hholds := holds_of_run hcoherent (suspension_judges maxDepth trigger) hwithin h rfl x hx
      exact absurd (((Inquiry.holds_of_provider hq).mp hholds hasync).symm.trans hdelegate) (by simp)

/-! ### The memory of answers -/

/-- The remembered answers are right for every singleton of the container. -/
def Answers.Right (catalog : Catalog) (among : Provider → Prop) (answers : Answers) : Prop :=
  ∀ entry ∈ answers, ∀ p, among p → p.lifetime = .single → p.identity = entry.1 →
    (entry.2 = true ↔ p.Suspends catalog)

theorem Answers.Right.nil (catalog : Catalog) (among : Provider → Prop) :
    Answers.Right catalog among [] :=
  fun _ hmem => by cases hmem

/-- From memory or not, the answer for a singleton is exact, and the memory stays right. -/
theorem suspendsWith_exact (hhosts : env.catalog.Hosts among) (hp : among p)
    (hsingle : p.lifetime = .single) (hright : answers.Right env.catalog among)
    (h : suspendsWith maxDepth trigger env p answers = .ok (answer, answers')) :
    (answer = true ↔ p.Suspends env.catalog) ∧ answers'.Right env.catalog among := by
  unfold suspendsWith at h
  cases hfind : answers.find? p with
  | some known =>
      rw [hfind] at h
      cases h
      -- A remembered answer was given for a provider of this identity.
      obtain ⟨entry, hentry, rfl⟩ := Option.map_eq_some_iff.mp hfind
      have hidentity : p.identity = entry.1 := by simpa [eq_comm] using List.find?_some hentry
      exact ⟨hright entry (List.mem_of_find?_eq_some hentry) p hp hsingle hidentity, hright⟩
  | none =>
      rw [hfind] at h
      obtain ⟨found, hfound, h₁⟩ := Run.except_bind_ok.mp h
      cases h₁
      have hexact := suspends_exact hhosts.coherent (hhosts.single p hp hsingle) hfound
      -- The new answer is remembered for the identity, so it must be right for all that have it.
      refine ⟨hexact, fun entry hentry q hq hqsingle hidentity => ?_⟩
      rcases List.mem_cons.mp hentry with rfl | hentry
      · have halike := hhosts.coherent q p hq hp hidentity
        refine hexact.trans ⟨fun hsuspends => ?_, halike.suspends hhosts hq hp hqsingle⟩
        exact (hhosts.coherent p q hp hq hidentity.symm).suspends hhosts hp hq hsingle hsuspends
      · exact hright entry hentry q hq hqsingle hidentity

/-- The singletons found below a delegate suspend, and are needed there outside the bodies of
asynchronous delegates. -/
theorem singletonsAhead_exact {isAsync : Bool} {ahead : List Provider}
    (hhosts : env.catalog.Hosts among)
    (hwithin : (Place.mk env isAsync (Environment.given p)).Within among)
    (hright : answers.Right env.catalog among)
    (h : singletonsAhead maxDepth trigger env p answers = .ok (ahead, answers')) :
    answers'.Right env.catalog among ∧ ∀ q ∈ ahead, q.lifetime = .single ∧
      q.Suspends env.catalog ∧ ∃ x, (Place.mk env isAsync (Environment.given p)).LeadsThrough
        Provider.IsFollowed x ∧ x.request.provider? = some q := by
  obtain ⟨entered, hvisits⟩ := run_sound h
  -- Along the survey: it is at a place below the delegate to which no asynchronous delegate leads; the
  -- answers are right and the singletons found so far as claimed.
  refine hvisits.invariant
    (P := fun env' r => ∃ isAsync', (Place.mk env isAsync (Environment.given p)).LeadsThrough
      Provider.IsFollowed ⟨env', isAsync', r⟩)
    (I := fun found => found.2.Right env.catalog among ∧ ∀ q ∈ found.1, q.lifetime = .single ∧
      q.Suspends env.catalog ∧ ∃ x, (Place.mk env isAsync (Environment.given p)).LeadsThrough
        Provider.IsFollowed x ∧ x.request.provider? = some q) ?_ ?_ ⟨isAsync, .refl⟩
    ⟨hright, by simp⟩
  · rintro env' r q found ⟨after, answers₁⟩ ⟨isAsync', hleads⟩ hq hjudge below hbelow
    refine ⟨q.waits isAsync', hleads.tail ⟨fun q' hq' => ?_, .intro hq hbelow⟩⟩
    cases hq.symm.trans hq'
    exact (goesOn_of_suspendingSingletons_judge hjudge).1
  · rintro env' r q ⟨found, answers₁⟩ goOn ⟨after, answers₂⟩ ⟨isAsync', hleads⟩ hq
      ⟨hright₁, hfound⟩ hjudge
    have hqamong : among q := hwithin _ hleads.leads q hq
    have hroot : env.root.catalog.Hosts among := hhosts
    refine ⟨?_, fun q' hq' => ?_⟩
    · rcases suspendingSingletons_judge hjudge with ⟨-, -, -, rfl⟩ | ⟨hsingle, -, known, hknown, -⟩ |
        ⟨-, -, -, -, rfl⟩
      · exact hright₁
      · exact (suspendsWith_exact hroot hqamong hsingle hright₁ hknown).2
      · exact hright₁
    · rcases mem_of_suspendingSingletons_judge hjudge hq' with hq' | ⟨rfl, hsingle, hknown⟩
      · exact hfound q' hq'
      · obtain ⟨hexact, -⟩ := suspendsWith_exact hroot hqamong hsingle hright₁ hknown
        exact ⟨hsingle, hexact.mp rfl, _, hleads, hq⟩

end Survey

end Wiring
