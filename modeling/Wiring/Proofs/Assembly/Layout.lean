import Wiring.Proofs.Assembly.Derivation
import Wiring.Proofs.Plan.Emission

/-!
# How the assembly lays down a plan

Every derivation of a plan lays the plan down in the sense of `Emission`: its steps are numbered in
the order in which they are made, and each of them finds around it what it needs and reads.

* `State.Laid` — the invariant: the steps so far were laid down, and every value obtained is there.
* `Obtains.lays`, `Assembles.planned` — obtaining a value and assembling a body keep it.
* `run_planned` — an assembled plan was laid down from nothing.
-/

namespace Wiring.Assembly

variable {admitted : String → Prop} {scheduler : Scheduler} {A : Surroundings} {lo : Nat}
  {scope : Scope} {env : Environment} {p : Provider} {s s' t : State}

/-! ### The invariant -/

/-- The variable of a supply is there: its step is around and stands behind it, or it is a variable
that no step fills. -/
def Supply.Fits (A : Surroundings) (supply : Supply) : Prop :=
  match supply.step? with
  | some step => step ∈ A.steps ∧ step.Provides supply.name
  | none => A.named supply.name

theorem Supply.Fits.mono {supply : Supply} {earlier later : List Step}
    (h : supply.Fits (A.after earlier)) (hle : earlier <+: later) : supply.Fits (A.after later) := by
  unfold Fits at h ⊢
  cases hstep : supply.step? with
  | none =>
      rw [hstep] at h
      exact h
  | some step =>
      rw [hstep] at h
      refine ⟨Surroundings.mem_after.mpr ?_, h.2⟩
      exact (Surroundings.mem_after.mp h.1).imp_right fun hmem => hle.subset hmem

/-- The steps so far were laid down, and every value obtained is there. -/
structure State.Laid (scheduler : Scheduler) (A : Surroundings) (lo : Nat) (s : State) : Prop where
  emission : Emission scheduler A lo s.steps s.numbered
  supplies : ∀ entry ∈ s.obtained, entry.2.Fits (A.after s.steps)

/-- What holds where a scope fits its surroundings: the delegates around are there, and so are the
admitted parameters. Only the accessor's own plan has no body around. -/
structure Scope.Fits (admitted : String → Prop) (A : Surroundings) (scope : Scope) : Prop where
  admitted : ∀ name, admitted name → A.named name
  around : ∀ entry ∈ scope.around, A.named entry.2
  accessor : scope.accessorOf? = none ∨ A.depth = 0

/-- A provider is asked for where its parameters are there. A singleton may be asked for at the
container instead of where the bodies are. -/
structure Asked (admitted : String → Prop) (A : Surroundings) (env : Environment) (p : Provider) :
    Prop where
  knows : env.Knows admitted A.named
  known : Known admitted A.named p
  level : p.lifetime = .single ∨ env.depth = A.depth

/-- A value was obtained and the steps made for it were laid down. -/
structure Lays (scheduler : Scheduler) (A : Surroundings) (lo : Nat) (s : State) (supply : Supply)
    (s' : State) : Prop where
  laid : s'.Laid scheduler A lo
  grows : s.steps <+: s'.steps
  fits : supply.Fits (A.after s'.steps)

namespace State.Laid

theorem congr (h : s.Laid scheduler A lo) (hsteps : s'.steps = s.steps)
    (hnumbered : s'.numbered = s.numbered) (hobtained : s'.obtained = s.obtained) :
    s'.Laid scheduler A lo := by
  refine ⟨?_, ?_⟩
  · rw [hsteps, hnumbered]
    exact h.emission
  · rw [hsteps, hobtained]
    exact h.supplies

theorem afterName (h : s.Laid scheduler A lo) : s.afterName.Laid scheduler A lo :=
  h.congr rfl rfl rfl

theorem withAnswers (h : s.Laid scheduler A lo) (answers : Survey.Answers) :
    (s.withAnswers answers).Laid scheduler A lo :=
  h.congr rfl rfl rfl

theorem afterNote (h : s.Laid scheduler A lo) {supply : Supply}
    (hfits : supply.Fits (A.after s.steps)) : (s.afterNote p supply).Laid scheduler A lo := by
  refine ⟨h.emission, fun entry hentry => ?_⟩
  rcases List.mem_cons.mp hentry with rfl | hentry
  · exact hfits
  · exact h.supplies entry hentry

theorem afterValue (h : s.Laid scheduler A lo) {supply : Supply}
    (hfits : supply.Fits (A.after s.steps)) : (s.afterValue p supply).Laid scheduler A lo := by
  unfold State.afterValue
  split
  · exact h.afterNote hfits
  · exact h

/-- One more step without a body. -/
theorem afterStep (h : s.Laid scheduler A lo) {statement : Statement} {release : Option Release}
    {needs : List Step} {step : Step} (hstep : step = s.draft scope statement release needs)
    (hbody : statement.body? = none) (hneeds : ∀ need ∈ needs, need ∈ (A.after s.steps).steps)
    (hreads : ∀ name ∈ statement.reads, (∃ need ∈ needs, need.Provides name) ∨ A.named name) :
    (s.afterStep step).Laid scheduler A lo := by
  subst hstep
  refine ⟨.step h.emission hbody ⟨rfl, hneeds, hreads⟩, fun entry hentry => ?_⟩
  exact (h.supplies entry hentry).mono (List.prefix_append _ _)

end State.Laid

theorem State.grows_afterStep (s : State) (step : Step) :
    s.steps <+: (s.afterStep step).steps :=
  List.prefix_append _ _

theorem State.afterValue_steps (s : State) (p : Provider) (supply : Supply) :
    (s.afterValue p supply).steps = s.steps := by
  unfold afterValue
  split <;> rfl

theorem State.afterValue_numbered (s : State) (p : Provider) (supply : Supply) :
    (s.afterValue p supply).numbered = s.numbered := by
  unfold afterValue
  split <;> rfl

/-- A step just made is around. -/
theorem State.mem_afterStep (s : State) (step : Step) :
    step ∈ (A.after (s.afterStep step).steps).steps :=
  Surroundings.mem_after.mpr (.inr (by simp [afterStep]))

theorem State.mem_afterStep_of_mem {step : Step} (h : step ∈ (A.after s.steps).steps) (last : Step) :
    step ∈ (A.after (s.afterStep last).steps).steps :=
  Surroundings.mem_after.mpr ((Surroundings.mem_after.mp h).imp_right (by simp +contextual [afterStep]))

/-! ### The composite parts -/

/-- Asking an accessor lays down its steps, which depend on nothing before. -/
theorem AsksAccessor.lays {c : Settings} {supply : Supply} (h : AsksAccessor c scope env p s supply s')
    (hs : s.Laid scheduler A lo) : Lays scheduler A lo s supply s' := by
  cases h with
  | @sync answers t asking _ ht hasking =>
      have hlaid : (t.afterStep asking).Laid scheduler A lo := by
        refine State.Laid.afterStep ?_ hasking rfl (by simp) (by simp [Statement.reads])
        rw [ht]
        exact hs.afterName.withAnswers answers
      have hfits : Supply.Fits (A.after (t.afterStep asking).steps)
          ⟨variableName p.ty env s.named, some asking⟩ :=
        ⟨t.mem_afterStep asking, .of_assigned (by rw [hasking]; rfl)⟩
      refine ⟨hlaid.afterNote hfits, ?_, hfits⟩
      rw [ht]
      exact State.grows_afterStep _ _
  | @async answers t asking waiting _ ht hasking hwaiting =>
      -- The two steps are laid down one after the other; the second reads the task of the first.
      have hasked : (t.afterStep asking).Laid scheduler A lo := by
        refine State.Laid.afterStep ?_ hasking rfl (by simp) (by simp [Statement.reads])
        rw [ht]
        exact (hs.afterName.withAnswers answers).afterName
      have hprovides : asking.Provides (variableName p.ty env s.named) :=
        .of_assigned (by rw [hasking]; rfl)
      have hlaid : ((t.afterStep asking).afterStep waiting).Laid scheduler A lo := by
        refine hasked.afterStep hwaiting rfl ?_ ?_
        · simpa using t.mem_afterStep asking
        · simpa [Statement.reads] using .inl hprovides
      have hfits : Supply.Fits (A.after ((t.afterStep asking).afterStep waiting).steps)
          ⟨variableName p.ty env (s.named + 1), some waiting⟩ :=
        ⟨State.mem_afterStep _ waiting, .of_assigned (by rw [hwaiting]; rfl)⟩
      refine ⟨hlaid.afterNote hfits, ?_, hfits⟩
      rw [ht]
      exact (State.grows_afterStep _ _).trans (State.grows_afterStep _ _)

/-- Creating a value lays down its steps: the creation, which needs the supplies of the arguments it
reads, and whatever waits for it or initializes it. -/
theorem CreatesValue.lays {name : String} {args : List (Option String)} {needs : List Step}
    {step : Step} (h : CreatesValue scope env p name args needs s step s')
    (hs : s.Laid scheduler A lo) (hneeds : ∀ need ∈ needs, need ∈ (A.after s.steps).steps)
    (hargs : ∀ arg, some arg ∈ args → (∃ need ∈ needs, need.Provides arg) ∨ A.named arg) :
    Lays scheduler A lo s ⟨name, some step⟩ s' := by
  have hreads : ∀ {task : String}, ∀ arg ∈ (Statement.create task p args).reads,
      (∃ need ∈ needs, need.Provides arg) ∨ A.named arg := by
    intro task arg harg
    exact hargs arg (by simpa [Statement.reads] using harg)
  -- Each further step needs the one before it and reads what that one assigns. What the last step
  -- provides is the value, perhaps through its needs.
  cases h with
  | plain _ _ hcreating =>
      refine ⟨hs.afterStep hcreating rfl hneeds hreads, s.grows_afterStep _, s.mem_afterStep _, ?_⟩
      exact .of_assigned (by rw [hcreating]; rfl)
  | @awaited t creating waiting _ _ ht hcreating hwaiting =>
      subst ht
      have hcreated := hs.afterName.afterStep hcreating rfl hneeds hreads
      have hprovides : creating.Provides (variableName p.ty env s.named) :=
        .of_assigned (by rw [hcreating]; rfl)
      refine ⟨hcreated.afterStep hwaiting rfl ?_ ?_,
        (State.grows_afterStep _ _).trans (State.grows_afterStep _ _), State.mem_afterStep _ _, ?_⟩
      · simpa using s.afterName.mem_afterStep creating
      · simpa [Statement.reads] using .inl hprovides
      · exact .of_assigned (by rw [hwaiting]; rfl)
  | @initialized creating starting _ _ hcreating hstarting =>
      have hcreated := hs.afterStep hcreating rfl hneeds hreads
      have hprovides : creating.Provides name := .of_assigned (by rw [hcreating]; rfl)
      refine ⟨hcreated.afterStep hstarting rfl ?_ ?_,
        (State.grows_afterStep _ _).trans (State.grows_afterStep _ _), State.mem_afterStep _ _, ?_⟩
      · simpa using s.mem_afterStep creating
      · simpa [Statement.reads] using .inl hprovides
      · exact hprovides.of_need (by rw [hstarting]; exact List.mem_singleton_self _)
  | @initializedAwaited t creating starting waiting _ _ hcreating ht hstarting hwaiting =>
      subst ht
      have hcreated := (hs.afterStep hcreating rfl hneeds hreads).afterName
      have hprovides : creating.Provides name := .of_assigned (by rw [hcreating]; rfl)
      have hstartedProvides : starting.Provides name :=
        hprovides.of_need (by rw [hstarting]; exact List.mem_singleton_self _)
      have hmem : creating ∈ (A.after (s.afterStep creating).afterName.steps).steps :=
        s.mem_afterStep creating
      have hstarted := hcreated.afterStep hstarting rfl (by simpa using hmem)
        (by simpa [Statement.reads] using .inl hprovides)
      have htask : starting.Provides (variableName p.ty env s.named) :=
        .of_assigned (by rw [hstarting]; rfl)
      refine ⟨hstarted.afterStep hwaiting rfl ?_ ?_, ?_, State.mem_afterStep _ _, ?_⟩
      · simpa using (s.afterStep creating).afterName.mem_afterStep starting
      · simpa [Statement.reads] using .inl htask
      · exact (s.grows_afterStep creating).trans
          ((State.grows_afterStep _ starting).trans (State.grows_afterStep _ _))
      · exact hstartedProvides.of_need (by rw [hwaiting]; exact List.mem_singleton_self _)

/-! ### Steps with bodies -/

/-- A step that holds a body, laid down after the body and after what it opens for the body. -/
theorem State.Laid.carrier {u v : State} {opening : List Step} {statement : Statement}
    {release : Option Release} {needs : List Step} {step : Step} {body : Plan}
    (h : t.Laid scheduler A lo) (hobtained : v.obtained = t.obtained)
    (hsteps : v.steps = t.steps ++ opening)
    (hopened : Emission scheduler (A.after t.steps) u.numbered opening v.numbered)
    (hstep : step = v.draft scope statement release needs)
    (hstatement : statement.body? = some body)
    (hbody : Planned scheduler step.statement.isBodyAsync ((A.after t.steps).inside step) t.numbered
      body u.numbered)
    (hneeds : ∀ need ∈ needs, need ∈ (A.after v.steps).steps)
    (hreads : statement.reads = []) : (v.afterStep step).Laid scheduler A lo := by
  have hfits : Fitting (A.after (t.steps ++ opening)) v.numbered step := by
    subst hstep
    refine ⟨rfl, by rwa [← hsteps], fun name hname => ?_⟩
    rw [show (v.draft scope statement release needs).statement = statement from rfl, hreads] at hname
    exact absurd hname List.not_mem_nil
  have hsome : step.statement.body? = some body := by rw [hstep]; exact hstatement
  refine ⟨?_, fun entry hentry => ?_⟩
  · have := Emission.carrier h.emission hsome hbody hopened hfits
    rwa [← hsteps] at this
  · refine (h.supplies entry (by rwa [← hobtained])).mono ?_
    show t.steps <+: v.steps ++ [step]
    rw [hsteps, List.append_assoc]
    exact List.prefix_append _ _

/-- The steps that create a delegate, laid down after its body. The body may use the steps of the plan
there were when it was begun, and the delegate's own variable. -/
theorem EmitsDelegate.lays {name : String} {body : Plan} {needs : List Step} {u : State} {step : Step}
    (h : EmitsDelegate scope p name body needs u step s') (ht : t.Laid scheduler A lo)
    (hsteps : u.steps = t.steps) (hobtained : u.obtained = t.obtained)
    (hbody : ∀ step : Step, step.statement = .delegate name p body (name ++ "_disposeActions") →
      Planned scheduler step.statement.isBodyAsync ((A.after t.steps).inside step) t.numbered body
        u.numbered)
    (hneeds : ∀ need ∈ needs, need ∈ (A.after t.steps).steps) :
    Lays scheduler A lo t ⟨name, some step⟩ s' := by
  cases h with
  | plain _ hcreating =>
      have hlaid := ht.carrier hobtained (by simpa using hsteps) .nil hcreating rfl
        (hbody step (by rw [hcreating]; rfl)) (by rwa [hsteps]) rfl
      refine ⟨hlaid, ?_, u.mem_afterStep _, .of_assigned (by rw [hcreating]; rfl)⟩
      rw [← hsteps]
      exact u.grows_afterStep _
  | @registered drain opening _ _ hopening hcreating =>
      -- The step that opens the registry is numbered after those of the body, but stands before the
      -- delegate.
      have hopened : Emission scheduler (A.after t.steps) u.numbered [opening]
          (u.afterStep opening).numbered := by
        have hnone : Emission scheduler (A.after t.steps) u.numbered [] u.numbered := .nil
        refine hnone.step (by rw [hopening]; rfl) ⟨by rw [hopening]; rfl, ?_, ?_⟩
        · simp [hopening, State.draft]
        · simp [hopening, State.draft, Statement.reads]
      have hgrown : (u.afterStep opening).steps = t.steps ++ [opening] := by
        show u.steps ++ [opening] = t.steps ++ [opening]
        rw [hsteps]
      have hlaid := ht.carrier (v := u.afterStep opening) hobtained hgrown hopened hcreating rfl
        (hbody step (by rw [hcreating]; rfl)) ?_ rfl
      · refine ⟨hlaid, ?_, State.mem_afterStep _ _, .of_assigned (by rw [hcreating]; rfl)⟩
        rw [← hsteps]
        exact (u.grows_afterStep _).trans (State.grows_afterStep _ _)
      · intro need hneed
        rcases List.mem_append.mp hneed with hneed | hneed
        · refine State.mem_afterStep_of_mem ?_ opening
          rw [hsteps]
          exact hneeds need hneed
        · obtain rfl := List.mem_singleton.mp hneed
          exact u.mem_afterStep _

/-! ### Scopes and requests -/

theorem Supply.Fits.inside {supply : Supply} (h : supply.Fits A) (carrier : Step) :
    supply.Fits (A.inside carrier) := by
  unfold Fits at h ⊢
  cases hstep : supply.step? with
  | none =>
      rw [hstep] at h
      exact .inr h
  | some step =>
      rw [hstep] at h
      exact h

/-- The steps behind supplies that are there are around. -/
theorem mem_of_stepsOf {supplies : List (Option Supply)}
    (h : ∀ supply, some supply ∈ supplies → supply.Fits A) :
    ∀ step ∈ stepsOf supplies, step ∈ A.steps := by
  intro step hstep
  obtain ⟨supply?, hmem, hsome⟩ := List.mem_filterMap.mp hstep
  obtain ⟨supply, rfl, hsupply⟩ := Option.bind_eq_some_iff.mp hsome
  have hfits := h supply hmem
  rw [Supply.Fits, hsupply] at hfits
  exact hfits.1

/-- The variables of supplies that are there. -/
theorem provides_of_namesOf {supplies : List (Option Supply)}
    (h : ∀ supply, some supply ∈ supplies → supply.Fits A) :
    ∀ name, some name ∈ namesOf supplies →
      (∃ step ∈ stepsOf supplies, step.Provides name) ∨ A.named name := by
  intro name hname
  obtain ⟨supply?, hmem, hsome⟩ := List.mem_map.mp hname
  obtain ⟨supply, rfl, rfl⟩ := Option.map_eq_some_iff.mp hsome
  have hfits := h supply hmem
  cases hstep : supply.step? with
  | none =>
      rw [Supply.Fits, hstep] at hfits
      exact .inr hfits
  | some step =>
      rw [Supply.Fits, hstep] at hfits
      exact .inl ⟨step, List.mem_filterMap.mpr ⟨some supply, hmem, hstep⟩, hfits.2⟩

/-- A value at hand is there. -/
theorem Supply.fits_of_atHand {supply : Supply} (hscope : scope.Fits admitted A)
    (hs : s.Laid scheduler A lo) (h : atHand scope p s.obtained = some supply) :
    supply.Fits (A.after s.steps) := by
  rcases Option.or_eq_some_iff.mp h with h | ⟨-, h⟩
  · split at h
    · obtain ⟨entry, hentry, rfl⟩ := Option.map_eq_some_iff.mp h
      exact hs.supplies entry (List.mem_of_find?_eq_some hentry)
    · cases h
  · split at h
    · obtain ⟨entry, hentry, rfl⟩ := Option.map_eq_some_iff.mp h
      exact hscope.around entry (List.mem_of_find?_eq_some hentry)
    · cases h

theorem enter_of_isCreated (hp : p.isCreated = true) :
    env.enter p = if p.lifetime = .single then env.root else env := by
  cases p <;> first | rfl | cases hp

theorem bodyNames_of_isCreated (hp : p.isCreated = true) (depth : Nat) : p.bodyNames depth = [] := by
  cases p <;> first | rfl | cases hp

/-- In a plan that is no accessor's, a singleton that is not asked for at its accessor leads to
singletons only, and nothing that it needs lacks a provider. -/
theorem single_of_not_usesAccessor {isTarget : Bool} (hsingle : p.lifetime = .single)
    (huses : usesAccessor scope isTarget p = false) (hscope : scope.accessorOf? = none) {r : Request}
    (hr : r ∈ env.requests p) : ∃ q, r.provider? = some q ∧ q.lifetime = .single := by
  cases p with
  | held member => simp [Environment.requests] at hr
  | forwarded ty inner =>
      simp only [Environment.requests, List.mem_singleton] at hr
      subst hr
      exact ⟨inner, rfl, hsingle⟩
  | _ => simp [usesAccessor, hsingle, hscope] at huses

theorem lifetime_of_not_usesAccessor {isTarget : Bool} (hsingle : p.lifetime = .single)
    (huses : usesAccessor scope isTarget p = false) (hscope : scope.accessorOf? = none) {r : Request}
    {q : Provider} (hr : r ∈ env.requests p) (hq : r.provider? = some q) : q.lifetime = .single := by
  obtain ⟨q', hq', hlifetime⟩ := single_of_not_usesAccessor hsingle huses hscope hr
  cases hq.symm.trans hq'
  exact hlifetime

/-- The dependencies of a created value are asked for like the value. -/
theorem Asked.requests {isTarget : Bool} (hscope : scope.Fits admitted A)
    (h : Asked admitted A env p) (hp : p.isCreated = true)
    (huses : usesAccessor scope isTarget p = false) {r : Request} {q : Provider}
    (hr : r ∈ (env.enter p).requests p) (hq : r.provider? = some q) :
    Asked admitted A (env.enter p) q := by
  have hknows := h.knows.enter_value (bodyNames_of_isCreated hp _)
  refine ⟨hknows, hknows.requests h.known hr hq, ?_⟩
  by_cases hsingle : p.lifetime = .single
  -- A singleton is entered at the container: in the plan of an accessor no body is around, and in
  -- any other plan only singletons can follow.
  · rcases hscope.accessor with hnone | hzero
    · exact .inl (lifetime_of_not_usesAccessor hsingle huses hnone hr hq)
    · right
      rw [enter_of_isCreated hp, if_pos hsingle, hzero]
      rfl
  · rw [enter_of_isCreated hp, if_neg hsingle]
    exact .inr (h.level.resolve_left hsingle)

/-- The surroundings of a body whose variables are the given ones. -/
theorem Scope.Fits.body {inner : Scope} (hscope : scope.Fits admitted A) (carrier : Step)
    (haround : ∀ entry ∈ inner.around, entry ∈ scope.around ∨
      entry.2 ∈ carrier.statement.bound (A.depth + 1))
    (haccessor : inner.accessorOf? = none) : inner.Fits admitted (A.inside carrier) :=
  ⟨fun name hname => .inr (hscope.admitted name hname),
    fun entry hentry => (haround entry hentry).elim (fun h => .inr (hscope.around entry h)) .inl,
    .inl haccessor⟩

/-- The value of a body is asked for where the body's parameters are. -/
theorem Asked.body {ty : Ty} {target : Provider} (h : Asked admitted A env p) (hp : p.HasBody ty)
    (carrier : Step)
    (hbound : ∀ name ∈ p.bodyNames (A.depth + 1), name ∈ carrier.statement.bound (A.depth + 1))
    (hlookup : (env.enter p).lookup ty = some target) :
    Asked admitted (A.inside carrier) (env.enter p) target := by
  have hlevel : env.depth = A.depth := h.level.resolve_left hp.not_single
  have hknows : (env.enter p).Knows admitted (A.inside carrier).named := by
    refine (h.knows.enter p).mono fun name hname => ?_
    rw [hlevel] at hname
    exact hname.imp_left (hbound name)
  exact ⟨hknows, hknows.lookup hlookup, .inr (by rw [hp.depth_enter, hlevel]; rfl)⟩

theorem Scope.Fits.after (h : scope.Fits admitted A) (emitted : List Step) :
    scope.Fits admitted (A.after emitted) :=
  ⟨h.admitted, h.around, h.accessor⟩

theorem Asked.after (h : Asked admitted A env p) (emitted : List Step) :
    Asked admitted (A.after emitted) env p :=
  ⟨h.knows, h.known, h.level⟩

/-- Where parameters need not be told apart, everything may be asked for. -/
theorem Asked.of_all (h : ∀ name, admitted name) (hlevel : env.depth = A.depth) :
    Asked admitted A env p :=
  ⟨.of_all h, .of_all h, .inr hlevel⟩

/-- The values that a body starts with are around it. -/
theorem State.Laid.singletons (h : s.Laid scheduler A lo) (carrier : Step) :
    ∀ entry ∈ s.singletons, entry.2.Fits ((A.after s.steps).inside carrier) :=
  fun entry hentry => (h.supplies entry (List.mem_filter.mp hentry).1).inside carrier

/-- Defining the function of an owned value lays it down; nothing is opened between its body and it. -/
theorem State.Laid.define {u : State} {function : String} {own : Bool} {body : Plan} {defining : Step}
    (ht : t.Laid scheduler A lo) (hsteps : u.steps = t.steps) (hobtained : u.obtained = t.obtained)
    (hdefining : defining = u.draft scope (.ownedFunction function p own body) none [])
    (hbody : Planned scheduler defining.statement.isBodyAsync ((A.after t.steps).inside defining)
      t.numbered body u.numbered) :
    ((u.afterStep defining).afterNote p ⟨function, some defining⟩).Laid scheduler A lo ∧
      (⟨function, some defining⟩ : Supply).Fits (A.after (u.afterStep defining).steps) := by
  have hdefined : (u.afterStep defining).Laid scheduler A lo :=
    ht.carrier hobtained (hsteps.trans (List.append_nil _).symm) .nil hdefining rfl hbody (by simp) rfl
  have hfits : (⟨function, some defining⟩ : Supply).Fits (A.after (u.afterStep defining).steps) :=
    ⟨State.mem_afterStep _ _, .of_assigned (by rw [hdefining]; rfl)⟩
  exact ⟨hdefined.afterNote hfits, hfits⟩

/-- The function of an owned value that was noted is there. -/
theorem State.Laid.noted {supply : Supply} (h : s.Laid scheduler A lo)
    (hnoted : (s.obtained.find? fun entry => entry.1 = p.identity).map (·.2) = some supply) :
    supply.Fits (A.after s.steps) := by
  obtain ⟨entry, hentry, rfl⟩ := Option.map_eq_some_iff.mp hnoted
  exact h.supplies entry (List.mem_of_find?_eq_some hentry)

/-- Calling the function of an owned value lays down the call. -/
theorem State.Laid.call (h : s.Laid scheduler A lo) {function : Supply}
    (hfunction : function.Fits (A.after s.steps)) {name : String} {isAsync : Bool} {step : Step}
    (hstep : step = s.draft scope (.owned name p isAsync function.name) none function.step?.toList) :
    Lays scheduler A lo s ⟨name, some step⟩ (s.afterStep step) := by
  have hlaid : (s.afterStep step).Laid scheduler A lo := by
    refine h.afterStep hstep rfl (fun need hneed => ?_) (fun arg harg => ?_)
    · rw [Supply.Fits, Option.mem_toList.mp hneed] at hfunction
      exact hfunction.1
    · obtain rfl := List.mem_singleton.mp harg
      cases hfound : function.step? with
      | none =>
          rw [Supply.Fits, hfound] at hfunction
          exact .inr hfunction
      | some defining =>
          rw [Supply.Fits, hfound] at hfunction
          exact .inl ⟨defining, List.mem_singleton_self _, hfunction.2⟩
  exact ⟨hlaid, s.grows_afterStep step, s.mem_afterStep step, .of_assigned (by rw [hstep]; rfl)⟩

/-! ### Derivations -/

variable {c : Settings}

/-- What is obtained ahead of a delegate are singletons, which hold no parameter of a body. -/
theorem Hoists.known {isAsync : Bool} {ahead : List Provider} {around : String → Prop}
    (h : Hoists c scope env p isAsync s ahead s') (henv : env.Knows admitted around)
    (hp : Known admitted around p) : ∀ q ∈ ahead, q.lifetime = .single ∧ q.NamedIn admitted := by
  intro q hq
  obtain ⟨answers, hahead⟩ := h.found hq
  exact Survey.singletonsAhead_known henv hp hahead q hq

/-- The singletons ahead are asked for like the delegate. -/
theorem Hoists.asked {isAsync : Bool} {ahead : List Provider}
    (h : Hoists c scope env p isAsync s ahead s') (hasked : Asked admitted A env p) :
    ∀ q ∈ ahead, Asked admitted A env q := by
  intro q hq
  obtain ⟨hsingle, hnamed⟩ := h.known hasked.knows hasked.known q hq
  exact ⟨hasked.knows, .inl hnamed, .inl hsingle⟩

theorem Hoists.laid {isAsync : Bool} {ahead : List Provider}
    (h : Hoists c scope env p isAsync s ahead s') (hs : s.Laid scheduler A lo) :
    s'.Laid scheduler A lo ∧ s'.steps = s.steps := by
  obtain ⟨hsteps, hnumbered, hobtained⟩ := h.same
  exact ⟨hs.congr hsteps hnumbered hobtained, hsteps⟩

mutual

/-- Obtaining a value lays down the steps made for it: each needs only steps laid down before, here or
around, and reads only what these assign or what is bound around. The induction is on the derivation; a
body is laid down within the steps there were when it was begun. -/
theorem Obtains.lays {c : Settings} {admitted : String → Prop} {scope : Scope} {isTarget : Bool}
    {env : Environment} {p : Provider} {s s' : State} {supply : Supply} {A : Surroundings} {lo : Nat} :
    Obtains c scope isTarget env p s supply s' → scope.Fits admitted A → Asked admitted A env p →
      s.Laid c.scheduler A lo → Lays c.scheduler A lo s supply s'
  | .atHand hhand, hscope, _, hs => ⟨hs, List.prefix_rfl, Supply.fits_of_atHand hscope hs hhand⟩
  | .accessor _ _ hasks, _, _, hs => hasks.lays hs
  | .parameter _, hscope, hasked, hs =>
      ⟨hs, List.prefix_rfl, hasked.known.parameter.elim (hscope.admitted _) id⟩
  | @Obtains.delegate _ _ _ _ _ ty result params isAsync name _ s₁ t u u' ahead supplies target body
      step hp _ _ hhoists heach hlookup hbody hemits, hscope, hasked, hs => by
      obtain ⟨hs₁, hsteps₁⟩ := hhoists.laid hs.afterName
      obtain ⟨ht, hgrows, hfits⟩ := heach.lays hscope (forall_given (hhoists.asked hasked)) hs₁
      -- The body sees the delegate itself, its parameters and what the plan has obtained so far.
      have hlays : Lays c.scheduler A lo t ⟨name, some step⟩ u' := by
        refine hemits.lays ht hbody.same.1 hbody.same.2 (fun carrier hcarrier => ?_)
          (mem_of_stepsOf hfits)
        have hwaits : carrier.statement.isBodyAsync = (scope.ofDelegate p isAsync name).isAsync := by
          rw [hcarrier, hp]
          rfl
        rw [hwaits]
        refine hbody.planned ((hscope.after _).body carrier (fun entry hentry => ?_) rfl)
          ((hasked.after _).body (.delegate hp) carrier ?_ hlookup) (ht.singletons carrier)
        -- Around the body there is one delegate more, and the parameters that it binds.
        · rw [hcarrier]
          rcases List.mem_cons.mp hentry with rfl | hentry
          · exact .inr List.mem_cons_self
          · exact .inl hentry
        · rw [hcarrier]
          exact fun name hname => List.mem_cons_of_mem _ hname
      refine ⟨hlays.laid.afterNote hlays.fits, ?_, hlays.fits⟩
      have hstart : s.steps <+: s₁.steps := by
        rw [hsteps₁]
        exact List.prefix_rfl
      exact hstart.trans (hgrows.trans hlays.grows)
  | .ownedAgain _ _ ht hnoted hstep, _, _, hs => by
      subst ht
      have hcall := hs.afterName.call (hs.afterName.noted hnoted) hstep
      exact ⟨hcall.laid, hcall.grows, hcall.fits⟩
  | @Obtains.owned _ _ _ _ _ ty value isAsync name _ t u v function target body defining step hp _
      ht hnoted hlookup hbody hdefining hfunction hv hstep, hscope, hasked, hs => by
      have ht' : t.Laid c.scheduler A lo := by
        rw [ht]
        exact hs.afterName
      -- The body of an owned value sees no more than its plan.
      have hplanned : Planned c.scheduler defining.statement.isBodyAsync
          ((A.after t.steps).inside defining) t.numbered body u.afterName.numbered := by
        have hwaits : defining.statement.isBodyAsync = (scope.ofOwned isAsync).isAsync := by
          rw [hdefining, hp]
          rfl
        rw [hwaits]
        refine hbody.planned ((hscope.after _).body defining (fun entry hentry => .inl hentry) rfl)
          ((hasked.after _).body (.owned hp) defining ?_ hlookup) (ht'.singletons defining)
        rw [hp]
        exact fun name hname => absurd hname List.not_mem_nil
      subst hfunction
      obtain ⟨hv', hfits⟩ := ht'.define (u := u.afterName) hbody.same.1 hbody.same.2 hdefining hplanned
      rw [← hv] at hv'
      have hgrows : s.steps <+: v.steps := by
        have hbase : s.steps = u.afterName.steps := by
          rw [State.afterName_steps, hbody.same.1, ht]
          rfl
        rw [hv, hbase]
        exact State.grows_afterStep _ defining
      have hcall := hv'.call (by rw [hv]; exact hfits) hstep
      exact ⟨hcall.laid, hgrows.trans hcall.grows, hcall.fits⟩
  | .value hp _ huses _ heach hcreates, hscope, hasked, hs => by
      -- The supplies of the dependencies fit what is there when the value is created, so its step reads
      -- what its needs provide.
      obtain ⟨ht, hgrows, hfits⟩ := heach.lays hscope
        (fun r hr q hq => hasked.requests hscope hp huses hr hq) hs.afterName
      have hlays := hcreates.lays ht (mem_of_stepsOf hfits)
        (provides_of_namesOf (A := A.after _) hfits)
      refine ⟨hlays.laid.afterValue hlays.fits, ?_, ?_⟩
      · rw [State.afterValue_steps]
        exact hgrows.trans hlays.grows
      · rw [State.afterValue_steps]
        exact hlays.fits

/-- Obtaining several values lays down the steps made for them, and the supplies of the earlier ones fit
still when the last is there. -/
theorem ObtainsEach.lays {c : Settings} {admitted : String → Prop} {scope : Scope}
    {env : Environment} {requests : List Request} {s s' : State} {supplies : List (Option Supply)}
    {A : Surroundings} {lo : Nat} :
    ObtainsEach c scope env requests s supplies s' → scope.Fits admitted A →
      (∀ r ∈ requests, ∀ q, r.provider? = some q → Asked admitted A env q) →
      s.Laid c.scheduler A lo → s'.Laid c.scheduler A lo ∧ s.steps <+: s'.steps ∧
        ∀ supply, some supply ∈ supplies → supply.Fits (A.after s'.steps)
  | .nil, _, _, hs => ⟨hs, List.prefix_rfl, by simp⟩
  | .supplied hprovider head tail, hscope, hasked, hs => by
      obtain ⟨ht, hgrows, hfits⟩ := head.lays hscope (hasked _ List.mem_cons_self _ hprovider) hs
      obtain ⟨hs', hgrows', hfits'⟩ :=
        tail.lays hscope (fun r hr => hasked r (List.mem_cons_of_mem _ hr)) ht
      refine ⟨hs', hgrows.trans hgrows', fun supply hmem => ?_⟩
      rcases List.mem_cons.mp hmem with heq | hmem
      · cases heq
        exact hfits.mono hgrows'
      · exact hfits' supply hmem
  | .leftOut _ _ tail, hscope, hasked, hs => by
      obtain ⟨hs', hgrows, hfits⟩ :=
        tail.lays hscope (fun r hr => hasked r (List.mem_cons_of_mem _ hr)) hs
      exact ⟨hs', hgrows, fun supply hmem => hfits supply (by simpa using hmem)⟩

/-- The plan of a body is laid down among its surroundings. -/
theorem Assembles.planned {c : Settings} {admitted : String → Prop} {scope : Scope}
    {env : Environment} {target : Provider} {known : List (Provider.Identity × Supply)}
    {s s' : State} {plan : Plan} {A : Surroundings} :
    Assembles c scope env target known s plan s' → scope.Fits admitted A →
      Asked admitted A env target → (∀ entry ∈ known, entry.2.Fits A) →
      Planned c.scheduler scope.isAsync A s.numbered plan s'.numbered
  | .body hobtains harranges, hscope, hasked, hknown => by
      have hstart : (s.forBody known).Laid c.scheduler A s.numbered :=
        ⟨.nil, by simpa [State.forBody] using hknown⟩
      exact .plan (hobtains.lays hscope hasked hstart).laid.emission harranges

end

end Wiring.Assembly
