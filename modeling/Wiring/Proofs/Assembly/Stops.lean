import Wiring.Proofs.Assembly.Calm
import Wiring.Proofs.Assembly.Failures
import Wiring.Proofs.Assembly.Layout

/-!
# What can stop the assembly of a plan

The assembly of what is vouched for never meets a required dependency without a provider, and it
always lays down steps that the scheduler can arrange. So it fails only when it is stopped.

* `Due` — the value of a provider is due: it is vouched for, and asked for where its parameters are.
* `State.Ready` — the state so far was laid down and is calm; obtaining what is due keeps it so.
* `obtain_stops`, `assemble_stops` — what is due is obtained, unless the run is stopped.
* `planResolution_stops`, `planAccessor_stops` — and so are plans as a whole.
-/

namespace Wiring

/-- What is required where a place is vouched for has a provider. -/
theorem Vouched.provided {catalog : Catalog} {among : Provider → Prop} {x : Place}
    (h : Vouched catalog among x) (hrequired : x.request.optional = false) :
    ∃ p, x.request.provider? = some p := by
  cases hp : x.request.provider? with
  | some p => exact ⟨p, rfl⟩
  | none =>
      have hsound := h.sound x .refl
      unfold Place.IsSound at hsound
      rw [hp] at hsound
      exact absurd (hsound.symm.trans hrequired) (by simp)

namespace Assembly

open Run

variable {catalog : Catalog} {among : Provider → Prop} {admitted : String → Prop} {c : Settings}
  {nested : AssembleBody} {A : Surroundings} {lo budget : Nat} {scope : Scope} {env : Environment}
  {p : Provider} {s t : State}

/-! ### What is due -/

/-- The value of a provider is due: it is vouched for, and asked for where its parameters are. -/
structure Due (catalog : Catalog) (among : Provider → Prop) (admitted : String → Prop)
    (A : Surroundings) (scope : Scope) (env : Environment) (p : Provider) : Prop where
  vouched : Vouched catalog among ⟨env, scope.isAsync, Environment.given p⟩
  asked : Asked admitted A env p

/-- The steps so far were laid down, and the plan is calm. -/
structure State.Ready (c : Settings) (catalog : Catalog) (among : Provider → Prop)
    (A : Surroundings) (lo : Nat) (scope : Scope) (s : State) : Prop where
  laid : s.Laid c.scheduler A lo
  calm : s.Calm catalog among scope.isAsync

theorem State.Ready.afterName (h : s.Ready c catalog among A lo scope) :
    s.afterName.Ready c catalog among A lo scope :=
  ⟨h.laid.afterName, h.calm.afterName⟩

/-- The dependencies of a value that is due are provided, and due, or optional. -/
theorem Due.requests {isTarget : Bool} (hscope : scope.Fits admitted A)
    (h : Due catalog among admitted A scope env p) (hp : p.isCreated = true)
    (huses : usesAccessor scope isTarget p = false) {r : Request}
    (hr : r ∈ (env.enter p).requests p) :
    (∀ q, r.provider? = some q → Due catalog among admitted A scope (env.enter p) q) ∧
      (r.provider? = none → r.optional = true) := by
  have hvouched : Vouched catalog among ⟨env.enter p, scope.isAsync, r⟩ := by
    have hnext := h.vouched.next (.intro rfl hr)
    rwa [waits_of_isCreated hp] at hnext
  refine ⟨fun q hq => ⟨hvouched.given hq, h.asked.requests hscope hp huses hr hq⟩, fun hnone => ?_⟩
  cases hoptional : r.optional with
  | true => rfl
  | false =>
      obtain ⟨q, hq⟩ := hvouched.provided hoptional
      cases hnone.symm.trans hq

/-- Bodies are assembled, unless the run is stopped. -/
def AssemblesBodies (catalog : Catalog) (among : Provider → Prop)
    (admitted : String → Prop) (nested : AssembleBody) : Prop :=
  ∀ A scope env target known s, scope.Fits admitted A → A.Sound s.numbered →
    Due catalog among admitted A scope env target → (∀ entry ∈ known, entry.2.Fits A) →
    s.answers.Right catalog among → Stops (nested scope env target known) s

/-- The value of a body that is due has a provider, and the body is assembled. -/
theorem AssemblesBodies.body {inner : Scope} {ty : Ty}
    (hbodies : AssemblesBodies catalog among admitted nested) (hA : A.Sound lo)
    (hscope : scope.Fits admitted A) (hs : s.Ready c catalog among A lo scope)
    (hasked : Asked admitted A env p) (hp : p.HasBody ty)
    (hbody : Vouched catalog among ⟨env.enter p, inner.isAsync, (env.enter p).request ty⟩)
    (carrier : Step)
    (haround : ∀ entry ∈ inner.around, entry ∈ scope.around ∨
      entry.2 ∈ carrier.statement.bound (A.depth + 1))
    (hbound : ∀ name ∈ p.bodyNames (A.depth + 1), name ∈ carrier.statement.bound (A.depth + 1))
    (haccessor : inner.accessorOf? = none) :
    Stops (assembleBody nested inner (env.enter p) ty) s := by
  refine assembleBody_failsOnly (fun hnone => ?_) fun target hlookup =>
    hbodies ((A.after s.steps).inside carrier) _ _ _ _ _
      ((hscope.after _).body carrier haround haccessor) ((hs.laid.emission.sound hA).inside carrier)
      ⟨hbody.given hlookup, (hasked.after _).body hp carrier hbound hlookup⟩
      (hs.laid.singletons carrier) hs.calm.answers
  obtain ⟨target, hlookup⟩ := hbody.provided rfl
  cases hnone.symm.trans hlookup

/-! ### Obtaining values -/

section

variable (hhosts : catalog.Hosts among) (hc : c.container.catalog = catalog) (hA : A.Sound lo)
  (hscope : scope.Fits admitted A)
  (hobtain : ∀ env q s, Due catalog among admitted A scope env q →
    s.Ready c catalog among A lo scope → Stops (obtain c nested scope budget false env q) s)
  (hready : ∀ env q s supply t, Due catalog among admitted A scope env q →
    s.Ready c catalog among A lo scope → obtain c nested scope budget false env q s = .ok supply t →
      t.Ready c catalog among A lo scope)
  (hbodies : AssemblesBodies catalog among admitted nested)

include hscope hobtain hready in
/-- A value that is due is created from its arguments. -/
theorem createdValue_stops {isTarget : Bool} (hp : p.isCreated = true)
    (huses : usesAccessor scope isTarget p = false)
    (hdue : Due catalog among admitted A scope env p) (hs : s.Ready c catalog among A lo scope) :
    Stops (createdValue c nested scope budget env p) s := by
  refine createdValue_failsOnly (FailsOnly.mapM (P := fun s => s.Ready c catalog among A lo scope) ?_ ?_
    hs.afterName)
  · intro r hr s hs
    obtain ⟨hprovided, hoptional⟩ := hdue.requests hscope hp huses hr
    -- Where there is no provider the request is optional, so leaving it out does not fail.
    cases hprovider : r.provider? with
    | some q => exact (hobtain _ _ _ (hprovided q hprovider) hs).map
    | none =>
        refine leaveOut_failsOnly (fun _ hlimit => hlimit.not_isUnsupported) fun hrequired => ?_
        cases (hoptional hprovider).symm.trans hrequired
  · intro r hr s supply t hs hrun
    obtain ⟨hprovided, -⟩ := hdue.requests hscope hp huses hr
    cases hprovider : r.provider? with
    | some q =>
        simp only [hprovider] at hrun
        obtain ⟨found, hfound, -⟩ := map_ok.mp hrun
        exact hready _ _ _ _ _ (hprovided q hprovider) hs hfound
    | none =>
        simp only [hprovider] at hrun
        obtain ⟨-, -, rfl⟩ := leaveOut_ok hrun
        exact hs

include hhosts hA hscope hbodies in
/-- A delegate that is due is created around its body; there is no singleton to obtain ahead. -/
theorem delegateValue_stops (budget : Nat) {ty result : Ty} {params : List Parameter} {isAsync : Bool}
    (hp : p = .delegate ty result params isAsync)
    (hdue : Due catalog among admitted A scope env p) (hs : s.Ready c catalog among A lo scope) :
    Stops (delegateValue c nested scope budget env p ty result isAsync) s := by
  refine delegateValue_failsOnly (fun _ hlimit => hlimit.not_isUnsupported) fun ahead t hhoists => ?_
  obtain ⟨rfl, hcalm⟩ := hhoists.calm hhosts hdue.vouched hp hs.afterName.calm
  have ht : t.Ready c catalog among A lo scope := ⟨(hhoists.laid hs.afterName.laid).1, hcalm⟩
  refine delegateAfter_failsOnly .pure fun supplies u hnone => ?_
  obtain ⟨-, rfl⟩ := pure_ok.mp hnone
  refine hbodies.body hA hscope ht hdue.asked (.delegate hp) ?_
    ⟨0, .delegate (variableName ty env s.named) p default "", none, [], false⟩ ?_ ?_ rfl
  · subst hp
    exact hdue.vouched.next (.intro rfl (List.mem_singleton_self _))
  · intro entry hentry
    rcases List.mem_cons.mp hentry with rfl | hentry
    · exact .inr List.mem_cons_self
    · exact .inl hentry
  · exact fun name hname => List.mem_cons_of_mem _ hname

include hA hscope hbodies in
/-- An owned value that is due is produced by its function. -/
theorem ownedValue_stops {ty value : Ty} {isAsync : Bool} (hp : p = .owned ty value isAsync)
    (hdue : Due catalog among admitted A scope env p) (hs : s.Ready c catalog among A lo scope) :
    Stops (ownedValue nested scope env p ty value isAsync) s := by
  refine ownedValue_failsOnly (hbodies.body hA hscope hs.afterName hdue.asked (.owned hp) ?_
    ⟨0, .ownedFunction (functionName ty s.named) p false default, none, [], false⟩
    (fun _ => .inl) ?_ rfl)
  · subst hp
    exact hdue.vouched.next (.intro rfl (List.mem_singleton_self _))
  · rw [hp]
    exact fun name hname => absurd hname List.not_mem_nil

end

/-- What is due is obtained, unless the run is stopped. The induction is on the budget. -/
theorem obtain_stops (hhosts : catalog.Hosts among) (hc : c.container.catalog = catalog)
    (hnested : ∀ scope env target known s plan s',
      nested scope env target known s = .ok plan s' →
        Assembles c scope env target known s plan s')
    (hbodies : AssemblesBodies catalog among admitted nested) (hA : A.Sound lo)
    (hscope : scope.Fits admitted A) {isTarget : Bool}
    (hdue : Due catalog among admitted A scope env p) (hs : s.Ready c catalog among A lo scope) :
    Stops (obtain c nested scope budget isTarget env p) s := by
  induction budget generalizing isTarget env p s with
  | zero => exact (exhausted_limited c s).mono fun _ hlimit => hlimit.not_isUnsupported
  | succ budget ih =>
      have hobtain : ∀ env q s, Due catalog among admitted A scope env q →
          s.Ready c catalog among A lo scope →
          Stops (obtain c nested scope budget false env q) s := fun _ _ _ => ih
      -- What was obtained before leaves the state ready for what comes next, by soundness.
      have hready : ∀ env q s supply t, Due catalog among admitted A scope env q →
          s.Ready c catalog among A lo scope →
          obtain c nested scope budget false env q s = .ok supply t →
            t.Ready c catalog among A lo scope := by
        intro env q s supply t hdue hs hrun
        have hobtains := obtain_sound hnested hrun
        exact ⟨(hobtains.lays hscope hdue.asked hs.laid).laid,
          hobtains.calm hhosts hc hdue.vouched hs.calm⟩
      refine obtain_failsOnly (fun _ hlimit => hlimit.not_isUnsupported) (fun hp huses => ?_)
        (fun ty result params isAsync hp => ?_) (fun ty value isAsync hp => ?_)
      · exact createdValue_stops hscope hobtain hready hp huses hdue hs
      · exact delegateValue_stops hhosts hA hscope hbodies budget hp hdue hs
      · exact ownedValue_stops hA hscope hbodies hp hdue hs

/-- A plan that is due is assembled, unless the run is stopped. -/
theorem assemble_stops (hhosts : catalog.Hosts among) (hc : c.container.catalog = catalog)
    (admitted : String → Prop) (nesting : Nat) :
    AssemblesBodies catalog among admitted (assemble c nesting) := by
  induction nesting with
  | zero => exact fun _ _ _ _ _ _ _ _ _ _ _ => .throw rfl
  | succ nesting ih =>
      intro A scope env target known s hscope hA hdue hknown hright
      have hnested : ∀ scope env target known s plan s',
          assemble c nesting scope env target known s = .ok plan s' →
            Assembles c scope env target known s plan s' := fun _ _ _ _ _ _ _ => assemble_sound
      have hs : (s.forBody known).Ready c catalog among A s.numbered scope :=
        ⟨⟨.nil, by simpa [State.forBody] using hknown⟩, fun _ hmem => (by cases hmem), hright⟩
      refine assemble_failsOnly (obtain_stops hhosts hc hnested ih hA hscope hdue hs) ?_
      intro supply t hobtained _
      have hemission := ((obtain_sound hnested hobtained).lays hscope hdue.asked hs.laid).laid.emission
      obtain ⟨arranged, harrange, -⟩ := hemission.arrange_ok hA
      rw [harrange]
      exact .ok

/-- A plan assembled on its own for what is vouched for is there, unless the run is stopped. -/
theorem run_stops {config : Config} {trigger : Trigger} {scope : Scope} {target : Provider}
    (hhosts : env.catalog.Hosts among) (haround : scope.around = [])
    (haccessor : scope.accessorOf? = none ∨ env.depth = 0)
    (hx : Vouched env.catalog among ⟨env, scope.isAsync, Environment.given target⟩) :
    Stopped (run config trigger scope env target) := by
  refine run_failedOnly fun nesting => ?_
  -- Where only errors matter, parameters need not be told apart.
  exact assemble_stops hhosts rfl (fun _ => True) nesting ⟨[], fun _ => True, env.depth⟩ scope env
    target [] .initial ⟨fun _ _ => trivial, by simp [haround], haccessor⟩
    (Surroundings.sound_empty _ _ _) ⟨hx, .of_all (fun _ => trivial) rfl⟩ (by simp) (.nil _ _)

end Assembly

section

variable {config : Config} {trigger : Trigger} {env : Environment} {among : Provider → Prop}
  {isAsync : Bool} {target : Provider}

theorem planResolution_stops (hhosts : env.catalog.Hosts among)
    (hx : Vouched env.catalog among ⟨env, isAsync, Environment.given target⟩) :
    Run.Stopped (planResolution config trigger env isAsync target) := by
  unfold planResolution
  exact Assembly.run_stops hhosts rfl (.inl rfl) hx

theorem planAccessor_stops {asyncRelease : Bool} (hhosts : env.catalog.Hosts among)
    (henv : env.depth = 0) (hx : Vouched env.catalog among ⟨env, isAsync, Environment.given target⟩) :
    Run.Stopped (planAccessor config trigger env asyncRelease isAsync target) := by
  unfold planAccessor
  exact Assembly.run_stops hhosts rfl (.inr henv) hx

end

end Wiring
