import Mathlib
import Wiring.Declarations
import Wiring.Proofs.Survey.Exactness
import Wiring.Proofs.Unfolding.Consistency
import Wiring.Proofs.Unfolding.Finite

/-!
# The surveys of suspension find everything

What a survey finds is there. Conversely it finds everything that is there, whatever it passes over:
providers entered before, delegates met in their own body, everything after the question is settled.
Its memory goes by identity, so that holds where providers of one identity are alike.

* `suspendsWith_nil` — a first answer of true is right, and every first answer is where providers of
  one identity are alike.
* `suspendsWith_nil_inexact` — elsewhere a suspending provider can be missed.
* `Provider.IsOpened` — the providers below which singletons are looked for ahead.
* `singletonsAhead_opened`, `singletonsAhead_complete` — the singletons found ahead of a delegate are
  those that suspend and are met below it, outside singletons and asynchronous delegates.
-/

namespace Wiring

/-- What is met through providers of which all pass is met by passing. -/
theorem Place.Within.leadsThrough {passes : Provider → Prop} {x y : Place} (h : x.Within passes)
    (hleads : x.Leads y) : x.LeadsThrough passes y := by
  induction hleads with
  | refl => exact .refl
  | tail hxb hstep ih => exact ih.tail ⟨h _ hxb, hstep⟩

/-- In a consistent container everything below a declared provider is alike where it has one
identity. -/
theorem Catalog.Consistent.coherent_given {env : Environment} (h : env.catalog.Consistent) {ty : Ty}
    {p : Provider} (hlookup : env.root.lookup ty = some p) (isAsync : Bool) :
    Coherent (Place.mk env.root isAsync (Environment.given p)).Meets := by
  refine (h.coherent_atRoot ty isAsync).mono ?_
  rintro q ⟨x, hx, hq⟩
  exact (Place.within_meets (Place.atRoot env ty isAsync)).given hlookup x hx q hq

namespace Survey

variable {maxDepth : Nat} {trigger : Trigger} {env : Environment} {p : Provider}
  {among : Provider → Prop} {answers answers' : Answers}

/-! ### First answers -/

/-- Asked for the first time, whether producing a value suspends is answered by the survey. -/
theorem suspends_of_suspendsWith_nil {answer : Bool}
    (h : suspendsWith maxDepth trigger env p [] = .ok (answer, answers)) :
    suspends maxDepth trigger env p = .ok answer := by
  obtain ⟨found, hfound, h⟩ := Run.except_bind_ok.mp h
  cases h
  exact hfound

/-- The first answer about a provider: if it is true, something asynchronous is reached from the
container without going into an asynchronous delegate. Where providers of one identity are alike, the
answer is true exactly then. -/
theorem suspendsWith_nil (maxDepth : Nat) (trigger : Trigger) (env : Environment) (p : Provider)
    (answer : Bool) (answers : Answers)
    (h : suspendsWith maxDepth trigger env p [] = .ok (answer, answers)) :
    (answer = true → p.Suspends env.catalog) ∧
      (Coherent (Place.ofProvider env.catalog false p).Meets →
        (answer = true ↔ p.Suspends env.catalog)) := by
  have hsuspends := suspends_of_suspendsWith_nil h
  refine ⟨?_, fun hcoherent => suspends_exact hcoherent (Place.within_meets _) hsuspends⟩
  rintro rfl
  exact suspends_of_answer hsuspends

/-- A recursive delegate whose parameter shadows a declaration: below it a singleton suspends, and the
answer is true. The same delegate, asynchronous, is not gone into. -/
theorem suspendsWith_nil_recursive :
    let s : Ty := .plain "S"
    let k : Ty := .plain "K"
    let t : Ty := .plain "T"
    let q : Ty := .plain "Q"
    let r : Ty := .plain "R"
    let needs (tys : List Ty) : List Parameter := tys.map fun ty => ⟨"", 0, ty, false⟩
    let env := ((({} : Declarations).addConstructor (.new s []) .single { isAsync := true })
      |>.addConstructor (.new k []) .dependency {}
      |>.addConstructor (.new t (needs [k, .delegate [k] t false, s])) .resolution {}
      |>.addConstructor (.new r (needs [.delegate [k] t false])) .resolution {}
      |>.addConstructor (.new q (needs [k, .delegate [k] t true])) .resolution {}).build
    ∃ pr pq, env.lookup r = some pr ∧ env.lookup q = some pq ∧
      pr.Suspends env.catalog ∧ ¬ pq.Suspends env.catalog := by
  intro s k t q r needs env
  have hconsistent : env.catalog.Consistent := .of_flat (by cbv) (by decide +kernel) rfl
  have hanswers : (env.lookup r).bind (fun p => (suspendsWith 16 .never env p []).toOption.map
        (·.1)) = some true ∧
      (env.lookup q).bind (fun p => (suspendsWith 16 .never env p []).toOption.map
        (·.1)) = some false := ⟨by cbv, by cbv⟩
  obtain ⟨hr, hq⟩ := hanswers
  obtain ⟨pr, hpr, hr⟩ := Option.bind_eq_some_iff.mp hr
  obtain ⟨pq, hpq, hq⟩ := Option.bind_eq_some_iff.mp hq
  obtain ⟨⟨answer, answers⟩, hr, rfl⟩ := Option.map_eq_some_iff.mp hr
  obtain ⟨⟨answer, answers'⟩, hq, rfl⟩ := Option.map_eq_some_iff.mp hq
  refine ⟨pr, pq, hpr, hpq, ?_, fun hsuspends => ?_⟩
  · exact (suspendsWith_nil _ _ _ _ _ _ (Run.ok_of_toOption hr)).1 rfl
  · exact Bool.false_ne_true (((suspendsWith_nil _ _ _ _ _ _ (Run.ok_of_toOption hq)).2
      (hconsistent.coherent_given hpq false)).mpr hsuspends)

/-- Two providers of one identity that are not alike: the second counts as entered when the first was,
and what it waits for is missed. -/
theorem suspendsWith_nil_inexact :
    let f : Ty := .plain "F"
    let x : Ty := .plain "X"
    let r : Ty := .plain "R"
    let ia : Ty := .plain "IA"
    let ib : Ty := .plain "IB"
    let needs (tys : List Ty) : List Parameter := tys.map fun ty => ⟨"", 0, ty, false⟩
    let env := ((({} : Declarations).addConstructor (.new f []) .dependency { exposedAs := [ia] })
      |>.addConstructor (.new f (needs [x])) .dependency { exposedAs := [ib] }
      |>.addConstructor (.new x []) .dependency { isAsync := true }
      |>.addConstructor (.new r (needs [ia, ib])) .resolution {}).build
    ∃ p answers, env.lookup r = some p ∧
      suspendsWith 16 .never env p [] = .ok (false, answers) ∧ p.Suspends env.catalog := by
  intro f x r ia ib needs env
  have hsummary : (env.lookup r).bind (fun p => (suspendsWith 16 .never env p []).toOption.map
      fun found => (found.1,
        (Place.ofProvider env.catalog false p).endsWithin 8,
        ((Place.ofProvider env.catalog false p).unfold 8).all fun y =>
          y.request.provider?.all fun q => !q.isDelegate,
        ((Place.ofProvider env.catalog false p).unfold 8).any fun y =>
          y.request.provider?.any Provider.isAsync)) = some (false, true, true, true) := by cbv
  obtain ⟨p, hlookup, hsummary⟩ := Option.bind_eq_some_iff.mp hsummary
  obtain ⟨⟨answer, answers⟩, hanswer, heq⟩ := Option.map_eq_some_iff.mp hsummary
  simp only [Prod.mk.injEq] at heq
  obtain ⟨rfl, hends, hplain, hasync⟩ := heq
  have hplain : ∀ y, (Place.ofProvider env.catalog false p).Leads y →
      ∀ q, y.request.provider? = some q → q.isDelegate = false := by
    intro y hy q hq
    have h := List.all_eq_true.mp hplain y ((Place.mem_unfold hends).mpr hy)
    rw [hq] at h
    simpa using h
  obtain ⟨y, hy, hasync⟩ := List.any_eq_true.mp hasync
  obtain ⟨q, hq, hasync⟩ := (Option.any_eq_true _ _).mp hasync
  have hleads := Place.leads_of_mem_unfold hy
  have hfollowed : (Place.ofProvider env.catalog false p).Within Provider.IsFollowed :=
    fun z hz q hq hdeferred => Bool.false_ne_true ((hplain z hz q hq).symm.trans hdeferred.1)
  exact ⟨p, answers, hlookup, Run.ok_of_toOption hanswer, y, hfollowed.leadsThrough hleads, q, hq,
    hasync, hplain y hleads q hq⟩

end Survey

/-! ### Singletons ahead of a delegate -/

/-- Singletons needed ahead of a delegate are looked for below it, but not below a singleton or an
asynchronous delegate. -/
def Provider.IsOpened (p : Provider) : Prop := p.IsFollowed ∧ p.lifetime ≠ .single

theorem Provider.Alike.isOpened {p q : Provider} (h : p.Alike q) (hp : p.IsOpened) : q.IsOpened := by
  refine ⟨?_, h.lifetime ▸ hp.2⟩
  rw [Provider.IsFollowed, ← h.isDelegate, ← h.isAsync]
  exact hp.1

namespace Survey

variable {maxDepth : Nat} {trigger : Trigger} {env : Environment} {p : Provider}
  {among : Provider → Prop} {answers answers' : Answers} {ahead : List Provider} {isAsync : Bool}

/-- The singletons found ahead of a delegate are met below it, outside singletons and asynchronous
delegates. -/
theorem singletonsAhead_opened (isAsync : Bool)
    (h : singletonsAhead maxDepth trigger env p answers = .ok (ahead, answers')) :
    ∀ q ∈ ahead, q.lifetime = .single ∧ ∃ x, (Place.mk env isAsync (Environment.given p)).LeadsThrough
      Provider.IsOpened x ∧ x.request.provider? = some q := by
  obtain ⟨entered, hvisits⟩ := run_sound h
  refine hvisits.invariant
    (P := fun env' r => ∃ isAsync', (Place.mk env isAsync (Environment.given p)).LeadsThrough
      Provider.IsOpened ⟨env', isAsync', r⟩)
    (I := fun found => ∀ q ∈ found.1, q.lifetime = .single ∧
      ∃ x, (Place.mk env isAsync (Environment.given p)).LeadsThrough Provider.IsOpened x ∧
        x.request.provider? = some q) ?_ ?_ ⟨isAsync, .refl⟩ (by simp)
  · rintro env' r q found ⟨after, answers₁⟩ ⟨isAsync', hleads⟩ hq hjudge below hbelow
    refine ⟨q.waits isAsync', hleads.tail ⟨fun q' hq' => ?_, .intro hq hbelow⟩⟩
    cases hq.symm.trans hq'
    exact goesOn_of_suspendingSingletons_judge hjudge
  · rintro env' r q ⟨found, answers₁⟩ goOn ⟨after, answers₂⟩ ⟨isAsync', hleads⟩ hq hfound hjudge
    intro q' hq'
    rcases mem_of_suspendingSingletons_judge hjudge hq' with hq' | ⟨rfl, hsingle, -⟩
    · exact hfound q' hq'
    · exact ⟨hsingle, _, hleads, hq⟩

/-- What the survey of suspending singletons makes sure of: of every identity under which a singleton
suspends, one is in the list. -/
def listed (catalog : Catalog) (among : Provider → Prop) (ahead : List Provider) : Inquiry where
  tracked := false
  allowsAbsent _ := True
  admits _ p := ∀ q, among q → q.identity = p.identity → q.lifetime = .single → q.Suspends catalog →
    ∃ found ∈ ahead, found.identity = q.identity
  passes := Provider.IsOpened
  admits_parameter := by
    rintro _ _ ⟨_, _, _, rfl⟩ q _ hidentity hsingle
    rw [Provider.lifetime_eq hidentity] at hsingle
    cases hsingle
  admits_alike _ _ _ _ halike _ h q hq hidentity := h q hq (hidentity.trans halike.identity)
  passes_alike _ _ halike := halike.isOpened

/-- An answer that is remembered rightly tells whether the singletons of the identity suspend. -/
theorem suspendsWith_right {catalog : Catalog} {answer : Bool} {q : Provider}
    (h : suspendsWith maxDepth trigger env p answers = .ok (answer, answers'))
    (hright : answers'.Right catalog among) (hq : among q) (hidentity : q.identity = p.identity)
    (hsingle : q.lifetime = .single) : answer = true ↔ q.Suspends catalog := by
  unfold suspendsWith at h
  cases hfind : answers.find? p with
  | some known =>
      rw [hfind] at h
      cases h
      obtain ⟨entry, hentry, rfl⟩ := Option.map_eq_some_iff.mp hfind
      have hfound : entry.1 = p.identity := by simpa using List.find?_some hentry
      exact hright entry (List.mem_of_find?_eq_some hentry) q hq hsingle (hidentity.trans hfound.symm)
  | none =>
      rw [hfind] at h
      obtain ⟨found, -, h⟩ := Run.except_bind_ok.mp h
      cases h
      exact hright _ List.mem_cons_self q hq hsingle hidentity

/-- Answers that are right later were right before: none is forgotten. -/
theorem suspendsWith_right_before {catalog : Catalog} {answer : Bool}
    (h : suspendsWith maxDepth trigger env p answers = .ok (answer, answers'))
    (hright : answers'.Right catalog among) : answers.Right catalog among := by
  unfold suspendsWith at h
  cases hfind : answers.find? p with
  | some known =>
      rw [hfind] at h
      cases h
      exact hright
  | none =>
      rw [hfind] at h
      obtain ⟨found, -, h⟩ := Run.except_bind_ok.mp h
      cases h
      exact fun entry hentry => hright entry (List.mem_cons_of_mem _ hentry)

theorem suspendingSingletons_judges (maxDepth : Nat) (trigger : Trigger) (container : Environment)
    (catalog : Catalog) (among : Provider → Prop) (ahead : List Provider) :
    Judges (suspendingSingletons maxDepth trigger container) (listed catalog among ahead)
      fun found => (∀ q ∈ found.1, q ∈ ahead) ∧ found.2.Right catalog among where
  tracked := rfl
  absent _ := trivial
  settled _ hsettled := absurd hsettled Bool.false_ne_true
  before := by
    rintro p ⟨found, answers⟩ goOn ⟨after, answers'⟩ hjudge ⟨hahead, hright⟩
    rcases suspendingSingletons_judge hjudge with ⟨-, -, rfl, rfl⟩ | ⟨-, -, answer, hanswer, rfl⟩ |
      ⟨-, -, -, rfl, rfl⟩
    · exact ⟨hahead, hright⟩
    -- The list only grows, and the answers from before were right if those after are.
    · refine ⟨fun q hq => hahead q ?_, suspendsWith_right_before hanswer hright⟩
      dsimp only
      split
      · exact List.mem_append_left _ hq
      · exact hq
    · exact ⟨hahead, hright⟩
  admits := by
    rintro p ⟨found, answers⟩ goOn ⟨after, answers'⟩ isAsync hjudge ⟨hahead, hright⟩ q hq hidentity
      hsingle hsuspends
    rcases suspendingSingletons_judge hjudge with ⟨⟨hdelegate, -⟩, -⟩ | ⟨-, -, answer, hanswer, rfl⟩ |
      ⟨-, hnot, -⟩
    · rw [Provider.lifetime_eq hidentity, Provider.lifetime_of_isDelegate hdelegate] at hsingle
      cases hsingle
    · have hanswered := (suspendsWith_right hanswer hright hq hidentity hsingle).mpr hsuspends
      -- The singleton is new and put in the list, or one of its identity was there.
      cases hsame : found.any p.same with
      | false =>
          refine ⟨p, hahead p ?_, hidentity.symm⟩
          simp [hanswered, hsame]
      | true =>
          obtain ⟨q', hq', hsame⟩ := List.any_eq_true.mp hsame
          refine ⟨q', hahead q' ?_, (eq_of_beq hsame).symm.trans hidentity.symm⟩
          simp [hanswered, List.any_eq_true.mpr ⟨q', hq', hsame⟩, hq']
    · exact absurd ((Provider.lifetime_eq hidentity).symm.trans hsingle) hnot
  goesOn := by
    rintro p ⟨found, answers⟩ ⟨after, answers'⟩ hjudge - hopened
    rcases suspendingSingletons_judge hjudge with ⟨hdeferred, -⟩ | ⟨hsingle, -⟩ | ⟨-, -, hgoOn, -⟩
    · exact hopened.1 hdeferred
    · exact hopened.2 hsingle
    · cases hgoOn

/-- Every singleton that suspends and is met below a delegate, outside singletons and asynchronous
delegates, is found ahead of it, or another of its identity is. -/
theorem singletonsAhead_complete (hhosts : env.catalog.Hosts among)
    (hwithin : (Place.mk env isAsync (Environment.given p)).Within among)
    (hright : answers.Right env.catalog among)
    (h : singletonsAhead maxDepth trigger env p answers = .ok (ahead, answers')) {x : Place}
    {q : Provider} (hx : (Place.mk env isAsync (Environment.given p)).LeadsThrough
      Provider.IsOpened x) (hq : x.request.provider? = some q) (hsingle : q.lifetime = .single)
    (hsuspends : q.Suspends env.catalog) : ∃ found ∈ ahead, found.identity = q.identity := by
  obtain ⟨hright', -⟩ := singletonsAhead_exact hhosts hwithin hright h
  have hholds := holds_of_run hhosts.coherent
    (suspendingSingletons_judges maxDepth trigger env.root env.catalog among ahead) hwithin h
    ⟨fun _ hq => hq, hright'⟩ x hx
  exact (Inquiry.holds_of_provider hq).mp hholds q (hwithin x hx.leads q hq) rfl hsingle hsuspends

end Survey

end Wiring
