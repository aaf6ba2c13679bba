import Wiring.Proofs.Assembly.Origin
import Wiring.Proofs.Assembly.Sharing
import Wiring.Proofs.Survey.Exactness

/-!
# What a run remembers

A run of the assembly has two memories. The notes of a plan say where the value of an identity is; the
answers say which singletons suspend, and they last for the whole run. Neither forgets: what is noted
stays noted as it is, whatever is obtained later, and answers that are right stay right.

* `Obtains.keeps` — obtaining a value keeps every note.
* `Obtains.noted_of_single`, `ObtainsEach.noted` — singletons obtained are noted as they were supplied.
* `Obtains.eq_of_noted` — a singleton that is noted is not obtained anew.
* `Obtains.right`, `Assembles.right` — the answers stay right.
-/

namespace Wiring.Assembly

variable {c : Settings} {scope : Scope} {env base : Environment} {p q : Provider}
  {i : Provider.Identity} {s s' t u : State} {supply found : Supply} {isTarget : Bool}

/-! ### Notes -/

theorem atHand_of_single (hsingle : p.lifetime = .single) :
    atHand scope p s.obtained = s.noted p.identity := by
  have hdelegate : p.isDelegate = false := by
    cases hdelegate : p.isDelegate with
    | false => rfl
    | true => cases hsingle.symm.trans (Provider.lifetime_of_isDelegate hdelegate)
  have hshared : p.lifetime.isShared = true := by rw [hsingle]; rfl
  simp [atHand, hdelegate, hshared, State.noted]

/-- A body finds the singletons that were noted around it. -/
theorem State.noted_forBody (hsingle : i.lifetime = .single) :
    (t.forBody s.singletons).noted i = s.noted i := by
  unfold noted forBody singletons
  rw [List.find?_filter]
  congr 2
  funext entry
  by_cases hentry : entry.1 = i <;> simp [hentry, hsingle]

theorem State.mem_of_noted (h : s.noted i = some supply) : (i, supply) ∈ s.obtained := by
  obtain ⟨⟨j, found⟩, hfind, rfl⟩ := Option.map_eq_some_iff.mp h
  have hj : j = i := by simpa using List.find?_some hfind
  exact hj ▸ List.mem_of_find?_eq_some hfind

theorem EmitsDelegate.same {name : String} {body : Plan} {needs : List Step} {step : Step}
    (h : EmitsDelegate scope p name body needs s step s') :
    s'.obtained = s.obtained ∧ s.numbered ≤ s'.numbered ∧ s'.answers = s.answers := by
  cases h with
  | plain => exact ⟨rfl, Nat.le_add_right _ 1, rfl⟩
  | registered => exact ⟨rfl, Nat.le_add_right _ 2, rfl⟩

theorem CreatesValue.same {name : String} {args : List (Option String)} {needs : List Step}
    {step : Step} (h : CreatesValue scope env p name args needs s step s') :
    s'.obtained = s.obtained ∧ s.numbered ≤ s'.numbered ∧ s'.answers = s.answers := by
  cases h with
  | plain => exact ⟨rfl, Nat.le_add_right _ 1, rfl⟩
  | awaited _ _ ht =>
      subst ht
      exact ⟨rfl, Nat.le_add_right _ 2, rfl⟩
  | initialized => exact ⟨rfl, Nat.le_add_right _ 2, rfl⟩
  | initializedAwaited _ _ _ ht =>
      subst ht
      exact ⟨rfl, Nat.le_add_right _ 3, rfl⟩

theorem AsksAccessor.keeps (h : AsksAccessor c scope env p s supply s')
    (hnone : s.noted p.identity = none) :
    Keeps (fun _ => True) s s' ∧ s'.noted p.identity = some supply := by
  obtain ⟨new, u, hproduces, rfl⟩ := h.produces
  have hle : s.numbered ≤ u.numbered := by
    rw [hproduces.numbered]
    exact Nat.le_add_right _ _
  exact ⟨(Keeps.of_obtained hle hproduces.obtained).afterNote hnone trivial,
    State.noted_afterNote_self⟩

mutual

/-- Obtaining a value keeps every note: a value is noted only if it was not at hand, so no note is
replaced, and the notes of bodies are dropped at their end. -/
theorem Obtains.keeps {c : Settings} {scope : Scope} {isTarget : Bool} {env : Environment}
    {p : Provider} {s s' : State} {supply : Supply} :
    Obtains c scope isTarget env p s supply s' → Keeps (fun _ => True) s s'
  | .atHand _ | .parameter _ => .refl _
  | .accessor hhand huses hasks => by
      rw [atHand_of_single (lifetime_of_usesAccessor huses)] at hhand
      exact (hasks.keeps hhand).1
  -- A value is noted only where it was not at hand, so that no note is replaced. The notes of a body
  -- are dropped after it.
  | .delegate hp hhand _ hhoists heach _ hbody hemits => by
      obtain ⟨-, hnumbered, hobtained⟩ := hhoists.same
      obtain ⟨hobtained', hnumbered', -⟩ := hemits.same
      have hnone := State.noted_of_not_atHand (by rw [hp]; rfl) hhand
      refine Keeps.afterNote ?_ hnone trivial
      have hahead : Keeps (fun _ => True) s _ := .of_obtained hnumbered.ge hobtained
      exact (hahead.trans heach.keeps).trans
        (.of_obtained (hbody.numbered_le.trans hnumbered') (hobtained'.trans hbody.same.2))
  | .ownedAgain _ _ ht _ _ => by
      subst ht
      exact (Keeps.afterName s).trans (.afterStep _ _)
  | .owned (t := t) (u := u) _ _ ht hnoted _ hbody _ _ hv _ => by
      have hnamed : Keeps (fun _ => True) s t := ht ▸ .afterName s
      have hdefined : Keeps (fun _ => True) t u := .of_obtained hbody.numbered_le hbody.same.2
      rw [hv]
      exact (hnamed.trans (((hdefined.trans (.afterName u)).trans (.afterStep _ _)).afterNote hnoted
        trivial)).trans (.afterStep _ _)
  | .value _ hhand _ _ heach hcreates => by
      obtain ⟨hobtained, hnumbered, -⟩ := hcreates.same
      have hcreated : Keeps (fun _ => True) s _ :=
        ((Keeps.afterName s).trans heach.keeps).trans (.of_obtained hnumbered hobtained)
      unfold State.afterValue
      split
      · rename_i hshared
        exact hcreated.afterNote (State.noted_of_not_atHand hshared hhand) trivial
      · exact hcreated

/-- Obtaining several values keeps every note. -/
theorem ObtainsEach.keeps {c : Settings} {scope : Scope} {env : Environment}
    {requests : List Request} {s s' : State} {supplies : List (Option Supply)} :
    ObtainsEach c scope env requests s supplies s' → Keeps (fun _ => True) s s'
  | .nil => .refl _
  | .supplied _ head tail => head.keeps.trans tail.keeps
  | .leftOut _ _ tail => tail.keeps

/-- Numbers only grow. -/
theorem Assembles.numbered_le {c : Settings} {scope : Scope} {env : Environment}
    {target : Provider} {known : List (Provider.Identity × Supply)} {s s' : State} {plan : Plan} :
    Assembles c scope env target known s plan s' → s.numbered ≤ s'.numbered
  | .body hobtains _ => hobtains.keeps.numbered

end

/-- A singleton is noted once it was obtained. -/
theorem Obtains.noted_of_single (h : Obtains c scope isTarget env p s supply s')
    (hsingle : p.lifetime = .single) : s'.noted p.identity = some supply := by
  cases h with
  | atHand hhand => rwa [atHand_of_single hsingle] at hhand
  | accessor hhand _ hasks =>
      rw [atHand_of_single hsingle] at hhand
      exact (hasks.keeps hhand).2
  | parameter => cases hsingle
  | delegate hp | ownedAgain hp | owned hp =>
      rw [hp] at hsingle
      cases hsingle
  | value =>
      rw [State.afterValue_of_isShared (by rw [hsingle]; rfl)]
      exact State.noted_afterNote_self

/-- A singleton that is noted is used as it is. -/
theorem Obtains.eq_of_noted (h : Obtains c scope isTarget env p s supply s')
    (hsingle : p.lifetime = .single) (hnoted : s.noted p.identity = some found) : supply = found := by
  have hkept := h.keeps.kept _ _ hnoted
  rw [h.noted_of_single hsingle] at hkept
  exact Option.some.inj hkept

/-- Of several singletons each is noted once they were obtained, as it was supplied. -/
theorem ObtainsEach.noted {providers : List Provider} {supplies : List (Option Supply)}
    (h : ObtainsEach c scope env (providers.map Environment.given) s supplies t)
    (hsingle : ∀ q ∈ providers, q.lifetime = .single) :
    ∀ q ∈ providers, ∃ supply, some supply ∈ supplies ∧ t.noted q.identity = some supply := by
  induction providers generalizing s supplies with
  | nil => exact fun _ hmem => absurd hmem List.not_mem_nil
  | cons first rest ih =>
      cases h with
      | leftOut hprovider => cases hprovider
      | supplied hprovider head tail =>
          cases hprovider
          intro q hq
          rcases List.mem_cons.mp hq with rfl | hq
          · exact ⟨_, List.mem_cons_self, tail.keeps.kept _ _
              (head.noted_of_single (hsingle _ List.mem_cons_self))⟩
          · obtain ⟨supply, hmem, hnoted⟩ :=
              ih tail (fun q hq => hsingle q (List.mem_cons_of_mem _ hq)) q hq
            exact ⟨supply, List.mem_cons_of_mem _ hmem, hnoted⟩

/-! ### Answers -/

variable {catalog : Catalog} {among : Provider → Prop}

/-- The value of a body is asked for in the environment of the body. -/
theorem Requested.inside {ty : Ty} {target : Provider} (h : Requested among base env p)
    (hp : p.HasBody ty) (hlookup : (env.enter p).lookup ty = some target) :
    Requested among (env.enter p) (env.enter p) target := by
  have hbody := h.body hp hlookup
  rwa [← h.enter_eq] at hbody

/-- What a body is assembled for is what its provider requests there. -/
theorem Requested.value_inside {ty : Ty} {target : Provider} (h : Requested among base env p)
    (hp : p.HasBody ty) (hlookup : (env.enter p).lookup ty = some target) :
    ∀ r ∈ (env.enter p).requests p, r.provider? = some target := by
  have hvalue := h.value hp hlookup
  rwa [← h.enter_eq] at hvalue

theorem AsksAccessor.right (hhosts : catalog.Hosts among) (hc : c.container.catalog = catalog)
    (h : AsksAccessor c scope env p s supply s') (hp : among p) (hsingle : p.lifetime = .single)
    (hs : s.answers.Right catalog among) : s'.answers.Right catalog among := by
  subst hc
  cases h with
  | sync hanswer ht =>
      subst ht
      exact (Survey.suspendsWith_exact hhosts hp hsingle hs hanswer).2
  | async hanswer ht =>
      subst ht
      exact (Survey.suspendsWith_exact hhosts hp hsingle hs hanswer).2

theorem Hoists.right {isAsync : Bool} {ahead : List Provider} (hhosts : catalog.Hosts among)
    (hcatalog : env.catalog = catalog) (h : Hoists c scope env p isAsync s ahead s')
    (hasked : Requested among base env p) (hs : s.answers.Right catalog among) :
    s'.answers.Right catalog among := by
  subst hcatalog
  obtain ⟨waits, hwithin⟩ := hasked.within
  obtain ⟨answers, hahead, rfl⟩ | ⟨-, rfl⟩ := h.surveyed
  · exact (Survey.singletonsAhead_exact hhosts hwithin hs hahead).1
  · exact hs

/-- The singletons ahead are asked for in the plan around. -/
theorem Hoists.asked_ahead {isAsync : Bool} {ahead : List Provider}
    (h : Hoists c scope env p isAsync s ahead s') (hasked : Requested among base env p) :
    ∀ r ∈ ahead.map Environment.given, ∀ q, r.provider? = some q → Requested among base env q :=
  Hoists.requested (σ := ⟨among, base, scope, []⟩) h hasked

mutual

/-- Obtaining a value keeps the answers right. They are the only part of the state that bodies pass
back. -/
theorem Obtains.right {catalog : Catalog} {among : Provider → Prop} {c : Settings}
    (hhosts : catalog.Hosts among) (hc : c.container.catalog = catalog) {scope : Scope}
    {isTarget : Bool} {base env : Environment} {p : Provider} {s s' : State} {supply : Supply} :
    Obtains c scope isTarget env p s supply s' → base.catalog = catalog → scope.FitsIn base →
      Requested among base env p → s.answers.Right catalog among → s'.answers.Right catalog among
  | .atHand _, _, _, _, hs | .parameter _, _, _, _, hs => hs
  | .accessor _ huses hasks, _, _, hasked, hs =>
      hasks.right hhosts hc hasked.among_self (lifetime_of_usesAccessor huses) hs
  -- Answers are kept from a body to the plan around it, unlike notes: they are about providers, which
  -- are the same in both.
  | .delegate hp _ _ hhoists heach hlookup hbody hemits, hbase, hscope, hasked, hs => by
      have hcatalog := hasked.catalog.trans hbase
      have ht := heach.right hhosts hc hbase hscope (hhoists.asked_ahead hasked)
        (hhoists.right hhosts hcatalog hasked hs)
      have htarget := hasked.inside (.delegate hp) hlookup
      have hu := hbody.right hhosts hc ((env.catalog_enter p).trans hcatalog) (.inl rfl) htarget ht
      exact hemits.same.2.2 ▸ hu
  | .ownedAgain _ _ ht _ _, _, _, _, hs => ht ▸ hs
  | .owned hp _ ht _ hlookup hbody _ _ hv _, hbase, _, hasked, hs => by
      have htarget := hasked.inside (.owned hp) hlookup
      have hu := hbody.right hhosts hc ((env.catalog_enter p).trans (hasked.catalog.trans hbase))
        (.inl rfl) htarget (ht ▸ hs)
      exact hv ▸ hu
  | .value hp _ huses _ heach hcreates, hbase, hscope, hasked, hs => by
      have ht := heach.right hhosts hc hbase hscope
        (fun r hr q hq => hasked.request hp huses hscope hr hq) hs
      unfold State.afterValue
      split
      · exact hcreates.same.2.2 ▸ ht
      · exact hcreates.same.2.2 ▸ ht

/-- Obtaining several values keeps the answers right. -/
theorem ObtainsEach.right {catalog : Catalog} {among : Provider → Prop} {c : Settings}
    (hhosts : catalog.Hosts among) (hc : c.container.catalog = catalog) {scope : Scope}
    {base env : Environment} {requests : List Request} {s s' : State}
    {supplies : List (Option Supply)} :
    ObtainsEach c scope env requests s supplies s' → base.catalog = catalog → scope.FitsIn base →
      (∀ r ∈ requests, ∀ q, r.provider? = some q → Requested among base env q) →
      s.answers.Right catalog among → s'.answers.Right catalog among
  | .nil, _, _, _, hs => hs
  | .supplied hprovider head tail, hbase, hscope, hasked, hs =>
      tail.right hhosts hc hbase hscope (fun r hr => hasked r (List.mem_cons_of_mem _ hr))
        (head.right hhosts hc hbase hscope (hasked _ List.mem_cons_self _ hprovider) hs)
  | .leftOut _ _ tail, hbase, hscope, hasked, hs =>
      tail.right hhosts hc hbase hscope (fun r hr => hasked r (List.mem_cons_of_mem _ hr)) hs

/-- Assembling a body keeps the answers right. -/
theorem Assembles.right {catalog : Catalog} {among : Provider → Prop} {c : Settings}
    (hhosts : catalog.Hosts among) (hc : c.container.catalog = catalog) {scope : Scope}
    {base : Environment} {target : Provider} {known : List (Provider.Identity × Supply)}
    {s s' : State} {plan : Plan} :
    Assembles c scope base target known s plan s' → base.catalog = catalog → scope.FitsIn base →
      Requested among base base target → s.answers.Right catalog among →
      s'.answers.Right catalog among
  | .body hobtains _, hbase, hscope, hasked, hs =>
      hobtains.right hhosts hc hbase hscope hasked hs

end

end Wiring.Assembly
