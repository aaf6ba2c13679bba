import Mathlib
import Wiring.Declarations
import Wiring.Proofs.Assembly.Layout
import Wiring.Proofs.Plan.Rearrangement

/-!
# The scheduler changes nothing but the order

Plans are arranged while the assembly goes on: a body is arranged before the plan around it continues.
Yet the assembly never looks at the order of steps, so that it does the same under any scheduler.

* `State.Alike` — two states that differ in the order of the steps in bodies only.
* `obtain_follows`, `assemble_follows` — obtaining a value and assembling a body under one scheduler
  follow the same under another.
* `planResolution_rearranges` — plans as a whole differ in the order of steps only.
-/

namespace Wiring

namespace Assembly

open Run

variable {admitted : String → Prop} {scheduler : Scheduler} {c : Settings}
  {nested nested' : AssembleBody} {A : Surroundings} {lo budget : Nat} {scope : Scope}
  {env : Environment} {p : Provider} {s s' t t' : State}

/-! ### States that differ in order -/

/-- What is used of a supply: its variable and the number of its step. -/
def Supply.key (supply : Supply) : String × Option Nat :=
  (supply.name, supply.step?.map Step.id)

/-- Two supplies that are used alike. -/
def Supply.Alike (supply supply' : Supply) : Prop :=
  supply.key = supply'.key

theorem Supply.Alike.of_step {name : String} {step step' : Step} (h : step.Rearranges step') :
    Supply.Alike ⟨name, some step⟩ ⟨name, some step'⟩ := by
  simp [Supply.Alike, Supply.key, h.id_eq]

/-- Nothing was found in both cases, or supplies that are used alike. -/
def FoundAlike (found found' : Option Supply) : Prop :=
  found.map Supply.key = found'.map Supply.key

theorem Supply.Alike.found {supply supply' : Supply} (h : supply.Alike supply') :
    FoundAlike (some supply) (some supply') :=
  congrArg some h

/-- What is used of a noted value. -/
def notedKey (entry : Provider.Identity × Supply) : Provider.Identity × (String × Option Nat) :=
  (entry.1, entry.2.key)

/-- Two states that differ at most in the order of the steps in bodies. -/
structure State.Alike (s s' : State) : Prop where
  named : s.named = s'.named
  numbered : s.numbered = s'.numbered
  answers : s.answers = s'.answers
  obtained : s.obtained.map notedKey = s'.obtained.map notedKey
  steps : List.Forall₂ Step.Rearranges s.steps s'.steps

theorem State.Alike.draft (h : s.Alike s') {statement statement' : Statement}
    (hstatement : statement.Rearranges statement') {release : Option Release}
    {needs needs' : List Step} (hneeds : needs.map Step.id = needs'.map Step.id) :
    (s.draft scope statement release needs).Rearranges
      (s'.draft scope statement' release needs') := by
  unfold State.draft
  rw [h.numbered]
  exact .step hstatement hneeds

theorem State.Alike.afterName (h : s.Alike s') : s.afterName.Alike s'.afterName :=
  ⟨congrArg (· + 1) h.named, h.numbered, h.answers, h.obtained, h.steps⟩

theorem State.Alike.afterStep (h : s.Alike s') {step step' : Step} (hstep : step.Rearranges step') :
    (s.afterStep step).Alike (s'.afterStep step') :=
  ⟨h.named, congrArg (· + 1) h.numbered, h.answers, h.obtained,
    List.rel_append h.steps (.cons hstep .nil)⟩

theorem State.Alike.afterNote (h : s.Alike s') {supply supply' : Supply}
    (hsupply : supply.Alike supply') : (s.afterNote p supply).Alike (s'.afterNote p supply') :=
  ⟨h.named, h.numbered, h.answers,
    congrArg₂ List.cons (congrArg (Prod.mk p.identity) hsupply) h.obtained, h.steps⟩

theorem State.Alike.withAnswers (h : s.Alike s') (answers : Survey.Answers) :
    (s.withAnswers answers).Alike (s'.withAnswers answers) :=
  ⟨h.named, h.numbered, rfl, h.obtained, h.steps⟩

/-- The same settings with another scheduler. -/
def Settings.under (c : Settings) (scheduler : Scheduler) : Settings := { c with scheduler }

/-! ### Parts that do not obtain anything -/

theorem checkpoint_follows {S : State → State → Prop} (hs : S s s') :
    Follows (fun _ _ => True) S (checkpoint c) (checkpoint (c.under scheduler)) s s' := by
  unfold checkpoint
  rw [show (c.under scheduler).trigger = c.trigger from rfl]
  split
  · exact .throw
  · exact .pure trivial hs

theorem newVariable_follows (ty : Ty) (env : Environment) (hs : s.Alike s') :
    Follows Eq State.Alike (newVariable ty env) (newVariable ty env) s s' :=
  .of_ok (newVariable_run ty env s) (newVariable_run ty env s') (by rw [hs.named]) hs.afterName

theorem newFunction_follows (ty : Ty) (hs : s.Alike s') :
    Follows Eq State.Alike (newFunction ty) (newFunction ty) s s' :=
  .of_ok rfl rfl (by rw [hs.named]) hs.afterName

theorem emit_follows {statement statement' : Statement} {needs needs' : List Step}
    (release : Option Release) (hstatement : statement.Rearranges statement')
    (hneeds : needs.map Step.id = needs'.map Step.id) (hs : s.Alike s') :
    Follows Step.Rearranges State.Alike (emit scope statement release needs)
      (emit scope statement' release needs') s s' := by
  have hdraft : (s.draft scope statement release needs).Rearranges
      (s'.draft scope statement' release needs') := hs.draft hstatement hneeds
  exact .of_ok rfl rfl hdraft (hs.afterStep hdraft)

theorem note_follows {supply supply' : Supply} (hsupply : supply.Alike supply') (hs : s.Alike s') :
    Follows (fun _ _ => True) State.Alike (note p supply) (note p supply') s s' :=
  .of_ok rfl rfl trivial (hs.afterNote hsupply)

theorem suspends_follows (p : Provider) (hs : s.Alike s') :
    Follows Eq State.Alike (suspends c p) (suspends (c.under scheduler) p) s s' := by
  rw [show suspends (c.under scheduler) p = suspends c p from rfl]
  unfold suspends
  refine .get_bind ?_
  rw [← hs.answers]
  cases h : Survey.suspendsWith c.maxDepth c.trigger c.container p s.answers with
  | error e => exact .throw
  | ok found => exact .of_ok rfl rfl rfl (hs.withAnswers found.2)

theorem singletonsAhead_follows (env : Environment) (p : Provider) (hs : s.Alike s') :
    Follows Eq State.Alike (singletonsAhead c env p) (singletonsAhead (c.under scheduler) env p)
      s s' := by
  rw [show singletonsAhead (c.under scheduler) env p = singletonsAhead c env p from rfl]
  unfold singletonsAhead
  refine .get_bind ?_
  rw [← hs.answers]
  cases h : Survey.singletonsAhead c.maxDepth c.trigger env p s.answers with
  | error e => exact .throw
  | ok found => exact .of_ok rfl rfl rfl (hs.withAnswers found.2)

theorem askAccessor_follows (scope : Scope) (env : Environment) (p : Provider) (hs : s.Alike s') :
    Follows Supply.Alike State.Alike (askAccessor c scope env p)
      (askAccessor (c.under scheduler) scope env p) s s' := by
  unfold askAccessor
  refine (newVariable_follows p.ty env hs).bind ?_
  rintro name _ _ _ - - rfl hs
  refine (suspends_follows p hs).bind ?_
  rintro answer _ _ _ - - rfl hs
  cases answer with
  | true =>
      refine (newVariable_follows p.ty env hs).bind ?_
      rintro awaited _ _ _ - - rfl hs
      refine (emit_follows none (.plain rfl) rfl hs).bind ?_
      intro asking _ asking' _ _ _ hasking hs
      refine (emit_follows none (.plain rfl) hasking.ids_singleton hs).bind ?_
      intro waiting _ waiting' _ _ _ hwaiting hs
      refine (note_follows (.of_step hwaiting) hs).bind ?_
      exact fun _ _ _ _ _ _ _ hs => .pure (.of_step hwaiting) hs
  | false =>
      refine (emit_follows none (.plain rfl) rfl hs).bind ?_
      intro asking _ asking' _ _ _ hasking hs
      refine (note_follows (.of_step hasking) hs).bind ?_
      exact fun _ _ _ _ _ _ _ hs => .pure (.of_step hasking) hs

theorem createValue_follows (scope : Scope) (env : Environment) (p : Provider) (name : String)
    (args : List (Option String)) {needs needs' : List Step}
    (hneeds : needs.map Step.id = needs'.map Step.id) (hs : s.Alike s') :
    Follows Step.Rearranges State.Alike (createValue scope env p name args needs)
      (createValue scope env p name args needs') s s' := by
  unfold createValue
  cases p.isInitialized <;> cases p.isAsync
  case false.false => exact emit_follows _ (.plain rfl) hneeds hs
  case false.true =>
    refine (newVariable_follows p.ty env hs).bind ?_
    rintro task _ _ _ - - rfl hs
    refine (emit_follows _ (.plain rfl) hneeds hs).bind ?_
    exact fun _ _ _ _ _ _ hcreating hs => emit_follows _ (.plain rfl) hcreating.ids_singleton hs
  case true.false =>
    refine (emit_follows _ (.plain rfl) hneeds hs).bind ?_
    exact fun _ _ _ _ _ _ hcreating hs => emit_follows _ (.plain rfl) hcreating.ids_singleton hs
  case true.true =>
    refine (emit_follows _ (.plain rfl) hneeds hs).bind ?_
    intro creating _ creating' _ _ _ hcreating hs
    refine (newVariable_follows p.ty env hs).bind ?_
    rintro task _ _ _ - - rfl hs
    refine (emit_follows _ (.plain rfl) hcreating.ids_singleton hs).bind ?_
    exact fun _ _ _ _ _ _ hstarting hs => emit_follows _ (.plain rfl) hstarting.ids_singleton hs

theorem supplyValue_follows (p : Provider) (name : String) {step step' : Step}
    (hstep : step.Rearranges step') (hs : s.Alike s') :
    Follows Supply.Alike State.Alike (supplyValue p name step) (supplyValue p name step') s s' := by
  unfold supplyValue
  cases p.lifetime.isShared with
  | true =>
      refine (note_follows (.of_step hstep) hs).bind ?_
      exact fun _ _ _ _ _ _ _ hs => .pure (.of_step hstep) hs
  | false => exact .pure (.of_step hstep) hs

/-! ### Values at hand -/

theorem State.Alike.noted (h : s.Alike s') (p : Provider) :
    FoundAlike ((s.obtained.find? fun entry => entry.1 = p.identity).map (·.2))
      ((s'.obtained.find? fun entry => entry.1 = p.identity).map (·.2)) := by
  have hfind : ∀ obtained : List (Provider.Identity × Supply),
      ((obtained.find? fun entry => entry.1 = p.identity).map (·.2)).map Supply.key =
        ((obtained.map notedKey).find? fun entry => entry.1 = p.identity).map (·.2) := by
    intro obtained
    rw [List.find?_map, Option.map_map, Option.map_map]
    rfl
  rw [FoundAlike, hfind, hfind, h.obtained]

theorem State.Alike.singletons (h : s.Alike s') :
    s.singletons.map notedKey = s'.singletons.map notedKey := by
  have hfilter : ∀ obtained : List (Provider.Identity × Supply),
      (obtained.filter fun entry => entry.1.lifetime = .single).map notedKey =
        (obtained.map notedKey).filter fun entry => entry.1.lifetime = .single := by
    intro obtained
    rw [List.filter_map]
    rfl
  rw [State.singletons, State.singletons, hfilter, hfilter, h.obtained]

theorem State.Alike.atHand (h : s.Alike s') (scope : Scope) (p : Provider) :
    FoundAlike (atHand scope p s.obtained) (atHand scope p s'.obtained) := by
  have hnoted := h.noted p
  unfold FoundAlike Assembly.atHand at *
  rw [Option.map_or, Option.map_or]
  split
  · rw [hnoted]
  · rfl

/-! ### Bodies -/

theorem assembleBody_follows {ty : Ty}
    (hnested : ∀ target, env.lookup ty = some target →
      Follows Plan.Rearranges State.Alike (nested scope env target s.singletons)
        (nested' scope env target s'.singletons) s s') :
    Follows Plan.Rearranges State.Alike (assembleBody nested scope env ty)
      (assembleBody nested' scope env ty) s s' := by
  unfold assembleBody
  cases hlookup : env.lookup ty with
  | none => exact .throw
  | some target => exact hnested target hlookup

/-- Whether a delegate has anything to release, and how, does not depend on the order of its body. -/
theorem bodyRelease_eq {body body' : Plan} (h : body.Rearranges body') (scope : Scope)
    (registry : String) : bodyRelease scope body registry = bodyRelease scope body' registry := by
  unfold bodyRelease
  have hreleases := h.releases
  generalize body.steps.filterMap Step.release = releases at hreleases ⊢
  generalize body'.steps.filterMap Step.release = releases' at hreleases ⊢
  cases releases with
  | nil => rw [hreleases.nil_eq]
  | cons first rest =>
      cases releases' with
      | nil => exact absurd hreleases.eq_nil (List.cons_ne_nil _ _)
      | cons first' rest' => simp only [hreleases.any_eq]

theorem createDelegate_follows {result : Ty} {isAsync : Bool} {name : String}
    {needs needs' : List Step} (hneeds : needs.map Step.id = needs'.map Step.id)
    (hbody : Follows Plan.Rearranges State.Alike
      (assembleBody nested (scope.ofDelegate p isAsync name) env result)
      (assembleBody nested' (scope.ofDelegate p isAsync name) env result) s s') :
    Follows Step.Rearranges State.Alike (createDelegate nested scope env p result isAsync name needs)
      (createDelegate nested' scope env p result isAsync name needs') s s' := by
  unfold createDelegate
  refine Follows.bind hbody ?_
  intro body _ body' _ _ _ hbody hs
  dsimp only
  rw [bodyRelease_eq hbody]
  cases bodyRelease scope body' (name ++ "_disposeActions") with
  | none => exact emit_follows none (.delegate hbody) hneeds hs
  | some drain =>
      refine (emit_follows none (.plain rfl) rfl hs).bind ?_
      intro opening _ opening' _ _ _ hopening hs
      refine emit_follows _ (.delegate hbody) ?_ hs
      rw [List.map_append, List.map_append, hneeds, hopening.ids_singleton]

theorem createOwned_follows {value : Ty} {isAsync : Bool} {name : String} (hs : s.Alike s')
    (hbody : Follows Plan.Rearranges State.Alike
      (assembleBody nested (scope.ofOwned isAsync) env value)
      (assembleBody nested' (scope.ofOwned isAsync) env value) s s') :
    Follows Step.Rearranges State.Alike (createOwned nested scope env p value isAsync name)
      (createOwned nested' scope env p value isAsync name) s s' := by
  have hcall : ∀ function function' : Supply, function.Alike function' → ∀ t t', t.Alike t' →
      Follows Step.Rearranges State.Alike
        (emit scope (.owned name p scope.isAsync function.name) none function.step?.toList)
        (emit scope (.owned name p scope.isAsync function'.name) none function'.step?.toList)
        t t' := by
    intro function function' hfunction t t' ht
    obtain ⟨hname, hstep⟩ := Prod.mk.inj hfunction
    rw [hname]
    refine emit_follows none (.plain rfl) ?_ ht
    rw [← Option.toList_map, ← Option.toList_map, hstep]
  unfold createOwned
  -- On both sides the function was noted, or it was not: the states are alike.
  refine Follows.bind (R := FoundAlike) (S := fun t t' => t = s ∧ t' = s')
    (.of_ok (noted?_run p s) (noted?_run p s') (hs.noted p) ⟨rfl, rfl⟩) ?_
  rintro found _ found' _ - - hfound ⟨rfl, rfl⟩
  cases found with
  | some function =>
      cases found' with
      | some function' => exact hcall function function' (Option.some.inj hfound) _ _ hs
      | none => cases hfound
  | none =>
      cases found' with
      | some function' => cases hfound
      | none =>
          refine Follows.bind hbody ?_
          intro body _ body' _ _ _ hbody hs
          refine (newFunction_follows p.ty hs).bind ?_
          rintro function _ _ _ - - rfl hs
          refine (emit_follows none (.ownedFunction hbody) rfl hs).bind ?_
          intro defining _ defining' _ _ _ hdefining hs
          refine (note_follows (.of_step hdefining) hs).bind ?_
          exact fun _ _ _ _ _ _ _ hs => hcall _ _ (.of_step hdefining) _ _ hs

/-- Bodies are assembled in one way as in another, under any surroundings that fit. -/
def BodiesFollow (admitted : String → Prop) (nested nested' : AssembleBody) : Prop :=
  ∀ A scope env target known known' s s', scope.Fits admitted A → A.Sound s'.numbered →
    Asked admitted A env target → (∀ entry ∈ known', entry.2.Fits A) →
    known.map notedKey = known'.map notedKey → s.Alike s' →
    Follows Plan.Rearranges State.Alike (nested scope env target known)
      (nested' scope env target known') s s'

/-- Two states that differ in order only, the second of which was laid down. -/
def State.Abreast (scheduler : Scheduler) (A : Surroundings) (lo : Nat) (s s' : State) : Prop :=
  s.Alike s' ∧ s'.Laid scheduler A lo

theorem newVariable_abreast (ty : Ty) (env : Environment) (hs : s.Abreast scheduler A lo s') :
    Follows Eq (State.Abreast scheduler A lo) (newVariable ty env) (newVariable ty env) s s' :=
  .of_ok (newVariable_run ty env s) (newVariable_run ty env s') (by rw [hs.1.named])
    ⟨hs.1.afterName, hs.2.afterName⟩

theorem BodiesFollow.body {inner : Scope} {ty : Ty} (hbodies : BodiesFollow admitted nested nested')
    (hA : A.Sound lo) (hscope : scope.Fits admitted A) (hs : s.Abreast scheduler A lo s')
    (hasked : Asked admitted A env p) (hp : p.HasBody ty) (carrier : Step)
    (haround : ∀ entry ∈ inner.around, entry ∈ scope.around ∨
      entry.2 ∈ carrier.statement.bound (A.depth + 1))
    (hbound : ∀ name ∈ p.bodyNames (A.depth + 1), name ∈ carrier.statement.bound (A.depth + 1))
    (haccessor : inner.accessorOf? = none) :
    Follows Plan.Rearranges State.Alike (assembleBody nested inner (env.enter p) ty)
      (assembleBody nested' inner (env.enter p) ty) s s' :=
  assembleBody_follows fun _ hlookup =>
    hbodies ((A.after s'.steps).inside carrier) _ _ _ _ _ _ _
      ((hscope.after _).body carrier haround haccessor)
      ((hs.2.emission.sound hA).inside carrier)
      ((hasked.after _).body hp carrier hbound hlookup) (hs.2.singletons carrier)
      hs.1.singletons hs.1

/-! ### Obtaining values -/

theorem namesOf_eq {supplies supplies' : List (Option Supply)}
    (h : List.Forall₂ FoundAlike supplies supplies') : namesOf supplies = namesOf supplies' := by
  induction h with
  | nil => rfl
  | @cons found found' _ _ hfound _ ih =>
      have hname : found.map Supply.name = found'.map Supply.name := by
        have := congrArg (Option.map Prod.fst) hfound
        rwa [Option.map_map, Option.map_map] at this
      exact congrArg₂ List.cons hname ih

theorem stepsOf_ids {supplies supplies' : List (Option Supply)}
    (h : List.Forall₂ FoundAlike supplies supplies') :
    (stepsOf supplies).map Step.id = (stepsOf supplies').map Step.id := by
  have hids : ∀ supplies : List (Option Supply), (stepsOf supplies).map Step.id =
      (supplies.map fun found => found.map Supply.key).filterMap fun key => key.bind Prod.snd := by
    intro supplies
    rw [stepsOf, List.map_filterMap, List.filterMap_map]
    refine List.filterMap_congr fun found _ => ?_
    cases found <;> rfl
  have hkeys : (supplies.map fun found => found.map Supply.key) =
      supplies'.map fun found => found.map Supply.key := by
    induction h with
    | nil => rfl
    | cons hfound _ ih => exact congrArg₂ List.cons hfound ih
  rw [hids, hids, hkeys]

theorem leaveOut_follows {S : State → State → Prop} (budget : Nat) (r : Request) (hs : S s s') :
    Follows FoundAlike S (obtain.leaveOut c budget r) (obtain.leaveOut (c.under scheduler) budget r)
      s s' := by
  unfold obtain.leaveOut
  by_cases hbudget : budget = 0
  · rw [if_pos hbudget]
    exact fun _ _ h => absurd (bind_ok.mp h) fun ⟨_, _, hexhausted, _⟩ => exhausted_ok hexhausted
  · rw [if_neg hbudget, if_neg hbudget]
    refine (checkpoint_follows hs).bind fun _ _ _ _ _ _ _ hs => ?_
    cases r.optional with
    | true => exact .pure rfl hs
    | false => exact .throw

section

variable (hA : A.Sound lo) (hscope : scope.Fits admitted A)
  (hobtain : ∀ env q s s', Asked admitted A env q → s.Abreast scheduler A lo s' →
    Follows Supply.Alike (State.Abreast scheduler A lo) (obtain c nested scope budget false env q)
      (obtain (c.under scheduler) nested' scope budget false env q) s s')
  (hbodies : BodiesFollow admitted nested nested')

include hscope hobtain in
theorem createdValue_follows {isTarget : Bool} (hp : p.isCreated = true)
    (huses : usesAccessor scope isTarget p = false) (hasked : Asked admitted A env p)
    (hs : s.Abreast scheduler A lo s') :
    Follows Supply.Alike State.Alike
      (createdValue c nested scope budget env p)
      (createdValue (c.under scheduler) nested' scope budget env p) s s' := by
  refine (newVariable_abreast p.ty env hs).bind ?_
  rintro name t _ t' - - rfl ht
  refine Follows.bind (.mapM (R := FoundAlike) (fun r hr u u' hu => ?_) ht) ?_
  · cases hprovider : r.provider? with
    | some q =>
        exact (hobtain _ _ _ _ (hasked.requests hscope hp huses hr hprovider) hu).map some
          fun _ _ halike => halike.found
    | none => exact leaveOut_follows budget r hu
  · intro supplies u supplies' u' _ _ hsupplies hu
    rw [namesOf_eq hsupplies]
    refine (createValue_follows _ _ _ _ _ (stepsOf_ids hsupplies) hu.1).bind ?_
    exact fun step _ step' _ _ _ hstep hs => supplyValue_follows p _ hstep hs

include hA hscope hobtain hbodies in
/-- The singletons ahead and the body are obtained alike, so the delegate is. -/
theorem delegateAfter_follows {ty result : Ty} {params : List Parameter} {isAsync : Bool}
    {name : String} {ahead : List Provider} (hp : p = .delegate ty result params isAsync)
    (hasked : Asked admitted A env p) (hahead : ∀ q ∈ ahead, Asked admitted A env q)
    (hs : s.Abreast scheduler A lo s') :
    Follows Supply.Alike State.Alike
      (delegateAfter c nested scope budget env p result isAsync name ahead)
      (delegateAfter (c.under scheduler) nested' scope budget env p result isAsync name ahead)
      s s' := by
  refine Follows.bind (.mapM (fun q hq u u' hu => hobtain env q u u' (hahead q hq) hu) hs) ?_
  intro supplies t supplies' t' _ _ hsupplies ht
  refine Follows.bind (createDelegate_follows ?_ (hbodies.body hA hscope ht hasked (.delegate hp)
    ⟨0, .delegate name p default "", none, [], false⟩ ?_ ?_ rfl))
    fun _ _ _ _ _ _ hstep hs => supplyValue_follows p _ hstep hs
  · have hfound : List.Forall₂ FoundAlike (supplies.map some) (supplies'.map some) :=
      List.rel_map (fun _ _ halike => halike.found) hsupplies
    rw [← stepsOf_map_some, ← stepsOf_map_some]
    exact stepsOf_ids hfound
  · intro entry hentry
    rcases List.mem_cons.mp hentry with rfl | hentry
    · exact .inr List.mem_cons_self
    · exact .inl hentry
  · exact fun name hname => List.mem_cons_of_mem _ hname

include hA hscope hobtain hbodies in
theorem delegateValue_follows {ty result : Ty} {params : List Parameter} {isAsync : Bool}
    (hp : p = .delegate ty result params isAsync) (hasked : Asked admitted A env p)
    (hs : s.Abreast scheduler A lo s') :
    Follows Supply.Alike State.Alike
      (delegateValue c nested scope budget env p ty result isAsync)
      (delegateValue (c.under scheduler) nested' scope budget env p ty result isAsync) s s' := by
  refine (newVariable_abreast ty env hs).bind ?_
  rintro name t _ t' - - rfl ht
  by_cases hwaits : (scope.isAsync && !isAsync) = true
  · simp only [if_pos hwaits]
    refine Follows.bind (singletonsAhead_follows env p ht.1) ?_
    rintro ahead u _ u' - hrun rfl hu
    have hhoists : Hoists (c.under scheduler) scope env p isAsync t' ahead u' := by
      rw [Hoists, if_pos hwaits]
      exact singletonsAhead_ok hrun
    exact delegateAfter_follows hA hscope hobtain hbodies hp hasked (hhoists.asked hasked)
      ⟨hu, (hhoists.laid ht.2).1⟩
  · simp only [if_neg hwaits]
    exact delegateAfter_follows hA hscope hobtain hbodies hp hasked (List.forall_mem_nil _) ht

include hA hscope hbodies in
theorem ownedValue_follows {ty value : Ty} {isAsync : Bool} (hp : p = .owned ty value isAsync)
    (hasked : Asked admitted A env p) (hs : s.Abreast scheduler A lo s') :
    Follows Supply.Alike State.Alike
      (ownedValue nested scope env p ty value isAsync)
      (ownedValue nested' scope env p ty value isAsync) s s' := by
  refine (newVariable_abreast ty env hs).bind ?_
  rintro name t _ t' - - rfl ht
  refine Follows.bind (createOwned_follows ht.1 (hbodies.body hA hscope ht hasked (.owned hp)
      ⟨0, .ownedFunction (functionName ty 0) p false default, none, [], false⟩
      (fun _ => .inl) ?_ rfl)) ?_
  · rw [hp]
    exact fun name hname => absurd hname List.not_mem_nil
  · exact fun _ _ _ _ _ _ hstep hs => supplyValue_follows p _ hstep hs

end

/-- What is obtained under one scheduler is obtained under another, up to the order of the steps in
bodies. The two runs go through states that are alike, down to the numbers of steps and variables. The
induction is on the budget. -/
theorem obtain_follows
    (hnested : ∀ scope env target known s plan s',
      nested' scope env target known s = .ok plan s' →
        Assembles (c.under scheduler) scope env target known s plan s')
    (hbodies : BodiesFollow admitted nested nested') (hA : A.Sound lo)
    (hscope : scope.Fits admitted A) {isTarget : Bool} (hasked : Asked admitted A env p)
    (hs : s.Abreast scheduler A lo s') :
    Follows Supply.Alike (State.Abreast scheduler A lo) (obtain c nested scope budget isTarget env p)
      (obtain (c.under scheduler) nested' scope budget isTarget env p) s s' := by
  refine Follows.and ?_ fun supply t' hrun =>
    ((obtain_sound hnested hrun).lays hscope hasked hs.2).laid
  induction budget generalizing isTarget env p s s' with
  | zero => exact fun _ _ h => absurd h exhausted_ok
  | succ budget ih =>
      -- To know that the two states go on abreast it is enough to follow the steps; that what was laid
      -- down is in order comes from soundness, on either side.
      have hobtain : ∀ env q s s', Asked admitted A env q → s.Abreast scheduler A lo s' →
          Follows Supply.Alike (State.Abreast scheduler A lo)
            (obtain c nested scope budget false env q)
            (obtain (c.under scheduler) nested' scope budget false env q) s s' :=
        fun _ _ _ _ hasked hs => (ih hasked hs).and fun _ _ hrun =>
          ((obtain_sound hnested hrun).lays hscope hasked hs.2).laid
      unfold obtain
      refine (checkpoint_follows hs).bind fun _ t _ t' _ _ _ ht => ?_
      refine Follows.bind (R := FoundAlike) (S := State.Abreast scheduler A lo)
        (.of_ok (atHand?_run scope p t) (atHand?_run scope p t') (ht.1.atHand scope p) ht) ?_
      intro hand u hand' u' _ _ hhand hu
      cases hand with
      | some supply =>
          cases hand' with
          | some supply' => exact .pure (Option.some.inj hhand) hu.1
          | none => cases hhand
      | none =>
          cases hand' with
          | some supply' => cases hhand
          | none =>
              by_cases huses : usesAccessor scope isTarget p = true
              · simp only [if_pos huses]
                exact askAccessor_follows scope env p hu.1
              · simp only [if_neg huses]
                have huses : usesAccessor scope isTarget p = false := by simpa using huses
                cases p with
                | parameter param name depth => exact .pure rfl hu.1
                | delegate ty result params isAsync =>
                    exact delegateValue_follows hA hscope hobtain hbodies rfl hasked hu
                | owned ty value isAsync =>
                    exact ownedValue_follows hA hscope hbodies rfl hasked hu
                | _ => exact createdValue_follows hscope hobtain rfl huses hasked hu

/-- What is assembled under one scheduler is assembled under another: the steps are the same up to the
order within each body, and every scheduler finds an order for steps that were laid down. -/
theorem assemble_follows (admitted : String → Prop) (nesting : Nat) :
    BodiesFollow admitted (assemble c nesting) (assemble (c.under scheduler) nesting) := by
  induction nesting with
  | zero => exact fun _ _ _ _ _ _ _ _ _ _ _ _ _ _ => .throw
  | succ nesting ih =>
      intro A scope env target known known' s s' hscope hA hasked hknown hkeys hs
      have hnested : ∀ scope env target known s plan s',
          assemble (c.under scheduler) nesting scope env target known s = .ok plan s' →
            Assembles (c.under scheduler) scope env target known s plan s' :=
        fun _ _ _ _ _ _ _ => assemble_sound
      have hstart : (s.forBody known).Abreast scheduler A s'.numbered (s'.forBody known') :=
        ⟨⟨hs.named, hs.numbered, hs.answers, hkeys, .nil⟩, .nil, by simpa [State.forBody] using hknown⟩
      rw [assemble, assemble]
      refine .get_bind (.bind (R := fun _ _ => True) (S := State.Abreast scheduler A s'.numbered)
        (.of_ok rfl rfl trivial hstart) ?_)
      intro _ u _ u' _ _ _ hu
      refine Follows.bind (obtain_follows hnested ih hA hscope hasked hu) ?_
      intro supply t supply' t' _ _ hsupply ht
      refine .get_bind (.bind (R := fun _ _ => True) (S := State.Alike) (.of_ok rfl rfl trivial
        ⟨ht.1.named, ht.1.numbered, ht.1.answers, hs.obtained, hs.steps⟩) ?_)
      intro _ u _ u' _ _ _ hu
      rw [(Prod.mk.inj hsupply).1]
      -- Steps are arranged only where waiting is possible, and steps laid down in order can be arranged
      -- by any scheduler.
      by_cases hwaits : scope.isAsync = true
      · rw [if_pos hwaits, if_pos hwaits]
        cases harrange : c.scheduler.arrange t.steps with
        | error e => exact .throw
        | ok arranged =>
            obtain ⟨arranged', harrange', hperm', -⟩ := ht.2.emission.arrange_ok hA
            rw [show (c.under scheduler).scheduler = scheduler from rfl, harrange']
            exact .pure (.of_perm ht.1.steps (Scheduler.arrange_perm harrange) hperm' _) hu
      · rw [if_neg hwaits, if_neg hwaits]
        exact .pure (.of_perm ht.1.steps (.refl _) (.refl _) _) hu

/-- A plan assembled with nothing around it under one scheduler is assembled under another. -/
theorem answer_follows {nesting : Nat} {target : Provider} {plan : Plan}
    (haround : scope.around = []) (haccessor : scope.accessorOf? = none ∨ env.depth = 0)
    (h : answer (assemble c nesting scope env target [] .initial) = .ok plan) :
    ∃ plan', answer (assemble (c.under scheduler) nesting scope env target [] .initial) = .ok plan' ∧
      plan.Rearranges plan' := by
  obtain ⟨s, hrun⟩ := answer_ok h
  -- Where only the order matters, parameters need not be told apart.
  obtain ⟨plan', s', hrun', hplan, -⟩ := assemble_follows (fun _ => True) nesting
    ⟨[], fun _ => True, env.depth⟩ scope env target [] [] .initial .initial
    ⟨fun _ _ => trivial, by simp [haround], haccessor⟩ (Surroundings.sound_empty _ _ _)
    (.of_all (fun _ => trivial) rfl) (by simp) rfl ⟨rfl, rfl, rfl, rfl, .nil⟩ plan s hrun
  exact ⟨plan', congrArg answer hrun', hplan⟩

theorem run_follows (config : Config) (scheduler : Scheduler) {trigger : Trigger}
    {target : Provider} {plan : Plan} (haround : scope.around = [])
    (haccessor : scope.accessorOf? = none ∨ env.depth = 0)
    (h : run config trigger scope env target = .ok plan) :
    ∃ plan', run { config with scheduler } trigger scope env target = .ok plan' ∧
      plan.Rearranges plan' :=
  answer_follows haround haccessor h

end Assembly

/-- Whatever the container and the target, a plan can be resolved under one scheduler if and only if
it can be under another, and then the two plans differ in the order of steps only: at every level of
bodies they have the same target and the same steps, each with the same number, needs, release and
statement. -/
theorem planResolution_rearranges (config : Config) (trigger : Trigger) (env : Environment)
    (isAsync : Bool) (target : Provider) (first second : Scheduler) :
    ((∃ plan, planResolution { config with scheduler := first } trigger env isAsync target = .ok plan) ↔
        ∃ plan, planResolution { config with scheduler := second } trigger env isAsync target =
          .ok plan) ∧
      ∀ plan plan',
        planResolution { config with scheduler := first } trigger env isAsync target = .ok plan →
        planResolution { config with scheduler := second } trigger env isAsync target = .ok plan' →
          plan.Rearranges plan' := by
  have hfollows : ∀ earlier later plan,
      planResolution { config with scheduler := earlier } trigger env isAsync target = .ok plan →
        ∃ plan', planResolution { config with scheduler := later } trigger env isAsync target =
          .ok plan' ∧ plan.Rearranges plan' := by
    intro earlier later plan h
    unfold planResolution at h ⊢
    exact Assembly.run_follows { config with scheduler := earlier } later rfl (.inl rfl) h
  refine ⟨⟨?_, ?_⟩, fun plan plan' h h' => ?_⟩
  · rintro ⟨plan, h⟩
    exact (hfollows first second plan h).imp fun _ => And.left
  · rintro ⟨plan, h⟩
    exact (hfollows second first plan h).imp fun _ => And.left
  · obtain ⟨other, hother, hplan⟩ := hfollows first second plan h
    cases hother.symm.trans h'
    exact hplan

/-- A delegate whose body asks for two singletons that suspend. One scheduler starts the second
before it waits for the first, in the body and outside. -/
theorem planResolution_rearranges_nested :
    let a : Ty := .plain "A"
    let b : Ty := .plain "B"
    let q : Ty := .plain "Q"
    let r : Ty := .plain "R"
    let needs (tys : List Ty) : List Parameter := tys.map fun ty => ⟨"", 0, ty, false⟩
    let env := ((({} : Declarations).addConstructor (.new a []) .single { isAsync := true })
      |>.addConstructor (.new b []) .single { isAsync := true }
      |>.addConstructor (.new q (needs [a, b])) .resolution {}
      |>.addConstructor (.new r (needs [.delegate [] q true, b, a])) .resolution {}).build
    ∃ target plan plan', env.lookup r = some target ∧
      planResolution { scheduler := .longestChain } .never env true target = .ok plan ∧
      planResolution { scheduler := .emission } .never env true target = .ok plan' ∧
      plan.tree.map Step.id = [6, 8, 5, 0, 2, 1, 3, 4, 7, 9, 10] ∧
      plan'.tree.map Step.id = [5, 0, 1, 2, 3, 4, 6, 7, 8, 9, 10] ∧ plan.Rearranges plan' := by
  intro a b q r needs env
  have hids : ((env.lookup r).bind fun target => do
      let plan ← (planResolution { scheduler := .longestChain } .never env true target).toOption
      let plan' ← (planResolution { scheduler := .emission } .never env true target).toOption
      return (plan.tree.map Step.id, plan'.tree.map Step.id)) =
        some ([6, 8, 5, 0, 2, 1, 3, 4, 7, 9, 10], [5, 0, 1, 2, 3, 4, 6, 7, 8, 9, 10]) := by cbv
  obtain ⟨target, hlookup, hplans⟩ := Option.bind_eq_some_iff.mp hids
  obtain ⟨plan, hplan, hplans⟩ := Option.bind_eq_some_iff.mp hplans
  obtain ⟨plan', hplan', hplans⟩ := Option.bind_eq_some_iff.mp hplans
  obtain ⟨htree, htree'⟩ := Prod.mk.inj (Option.some.inj hplans)
  have hok := Run.ok_of_toOption hplan
  have hok' := Run.ok_of_toOption hplan'
  exact ⟨target, plan, plan', hlookup, hok, hok', htree, htree',
    (planResolution_rearranges {} .never env true target .longestChain .emission).2 plan plan' hok
      hok'⟩

end Wiring
