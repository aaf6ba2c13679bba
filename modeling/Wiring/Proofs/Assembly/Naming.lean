import Mathlib
import Wiring.Proofs.Assembly.Calm
import Wiring.Proofs.Assembly.Topology
import Wiring.Proofs.Names

/-!
# Every variable is assigned once

A name is made up of the number it was given, and no number is given twice in a run. So the names that
the steps of a plan and of all its bodies assign are distinct.

* `Generated` — the name of a variable, a function or a registry, with its number.
* `Plan.Distinct` — no two steps of a tree assign one name, or have one number.
* `Named` — distinct names whose numbers lie between two bounds.
* `State.Adds` — the steps made between two states assign names reserved before, and new ones.
* `Obtains.adds`, `Assembles.named` — obtaining a value and assembling a body keep that.
* `run_named` — no two steps in the tree of a plan assign one name.
-/

namespace Wiring

/-- The names that steps assign. -/
def assignedIn (steps : List Step) : List String :=
  steps.filterMap fun step => step.statement.assigned?

@[simp] theorem assignedIn_append (first second : List Step) :
    assignedIn (first ++ second) = assignedIn first ++ assignedIn second :=
  List.filterMap_append

theorem mem_assignedIn {steps : List Step} {step : Step} {name : String} (hstep : step ∈ steps)
    (hname : step.statement.assigned? = some name) : name ∈ assignedIn steps :=
  List.mem_filterMap.mpr ⟨step, hstep, hname⟩

/-- Where names are assigned once, the name tells the step. -/
theorem eq_of_assigned {steps : List Step} (hnodup : (assignedIn steps).Nodup) {a b : Step}
    {name : String} (ha : a ∈ steps) (hb : b ∈ steps) (haname : a.statement.assigned? = some name)
    (hbname : b.statement.assigned? = some name) : a = b := by
  have hpairs : steps.Pairwise fun a b =>
      a.statement.assigned? = some name → b.statement.assigned? = some name → a = b :=
    (List.pairwise_filterMap.mp hnodup).imp fun h ha hb => absurd rfl (h name ha name hb)
  exact hpairs.forall_of_forall_of_flip (fun _ _ _ _ => rfl)
    (hpairs.imp fun h hb ha => (h ha hb).symm) ha hb haname hbname

/-- No two steps in the tree of a plan have one number or assign one name. -/
structure Plan.Distinct (plan : Plan) : Prop where
  ids : (plan.tree.map Step.id).Nodup
  names : (assignedIn plan.tree).Nodup

/-- No two steps of a plan in the tree assign one name. -/
theorem Plan.Distinct.assigned {root plan : Plan} {around : List (Plan × Step)} (h : root.Distinct)
    (hwithin : root.Within around plan) : (assignedIn plan.steps).Nodup := by
  have htree : (assignedIn (treeOf plan.steps)).Nodup := by
    rw [← Plan.tree_eq]
    exact h.names.sublist (hwithin.tree_sublist.filterMap _)
  rw [assignedIn, ((treeOf_perm_inner plan.steps).filterMap _).nodup_iff, List.filterMap_append] at htree
  exact (List.nodup_append.mp htree).1

/-- What a plan around assigns, a body does not. -/
theorem Plan.Distinct.not_assigned {root nested plan : Plan} {carrier a b : Step}
    {around : List (Plan × Step)} {name : String} (h : root.Distinct)
    (hwithin : root.Within around nested) (hmem : (plan, carrier) ∈ around) (ha : a ∈ plan.steps)
    (haname : a.statement.assigned? = some name) (hb : b ∈ nested.tree) :
    b.statement.assigned? ≠ some name := by
  intro hbname
  obtain ⟨outer, hplan, -, -⟩ := hwithin.of_mem hmem
  obtain rfl := eq_of_assigned h.names (hplan.mem_tree ha)
    (hwithin.tree_sublist.subset hb) haname hbname
  exact hwithin.not_mem h.ids hmem hb ha

namespace Assembly

/-! ### Generated names -/

/-- A name that was given a number: a variable, the function of an owned value, or the registry of a
delegate, which shares the delegate's number. -/
inductive Generated (n : Nat) : String → Prop
  | value (ty : Ty) (env : Environment) : Generated n (variableName ty env n)
  | function (ty : Ty) : Generated n (functionName ty n)
  | registry (ty : Ty) (env : Environment) :
      Generated n (variableName ty env n ++ "_disposeActions")

theorem variableName_numbered (ty : Ty) (env : Environment) (n : Nat) :
    ∃ stem, EndsPlain stem ∧ variableName ty env n = stem ++ toString n :=
  ⟨_, .append _ rfl rfl, rfl⟩

/-- The name of a variable for a value. -/
def IsVariable (name : String) : Prop := ∃ ty env n, name = variableName ty env n

theorem isVariable_variableName (ty : Ty) (env : Environment) (n : Nat) :
    IsVariable (variableName ty env n) :=
  ⟨ty, env, n, rfl⟩

/-- The number can be read off the name, which then may go on as a registry's. -/
theorem Generated.numbered {n : Nat} {name : String} (h : Generated n name) :
    ∃ stem, EndsPlain stem ∧
      (name = stem ++ toString n ∨ name = stem ++ toString n ++ "_disposeActions") := by
  cases h with
  | value ty env =>
      obtain ⟨stem, hstem, heq⟩ := variableName_numbered ty env n
      exact ⟨stem, hstem, .inl heq⟩
  | function ty => exact ⟨_, .append _ rfl rfl, .inl rfl⟩
  | registry ty env =>
      obtain ⟨stem, hstem, heq⟩ := variableName_numbered ty env n
      exact ⟨stem, hstem, .inr (by rw [heq])⟩

theorem registry_endsPlain (stem : String) : EndsPlain (stem ++ "_disposeActions") :=
  .append _ rfl rfl

/-- One name has one number. -/
theorem Generated.inj {n m : Nat} {name : String} (hn : Generated n name) (hm : Generated m name) :
    n = m := by
  obtain ⟨stem, hstem, rfl | rfl⟩ := hn.numbered <;>
    obtain ⟨stem', hstem', heq | heq⟩ := hm.numbered
  · exact (numbered_inj hstem hstem' heq).2
  · exact absurd heq (numbered_ne_plain (registry_endsPlain _))
  · exact absurd heq.symm (numbered_ne_plain (registry_endsPlain _))
  · exact (numbered_inj hstem hstem' (append_right_cancel heq)).2

/-- No variable, function or registry is called like a parameter. -/
theorem not_generated_parameterName {n depth index : Nat} :
    ¬ Generated n (parameterName depth index) := by
  have hstem : EndsPlain ("param" ++ toString depth ++ "_") := .append _ rfl rfl
  generalize hname : parameterName depth index = name
  rintro (⟨ty, env⟩ | ty | ⟨ty, env⟩)
  · -- What stands before the number of bodies differs in its last character.
    have hdepths : "param" ++ toString depth = ty.identifier ++ "_" ++ toString env.depth :=
      append_right_cancel (numbered_inj hstem (.append _ rfl rfl) hname).1
    have hstems : "param" = ty.identifier ++ "_" :=
      (numbered_inj (by simp [EndsPlain]) (.append _ rfl rfl) hdepths).1
    have hlast := congrArg (fun text => text.toList.getLast?) hstems
    simp at hlast
  · have hstems : "param" ++ toString depth ++ "_" = "create_" ++ ty.identifier ++ "_" :=
      (numbered_inj hstem (.append _ rfl rfl) hname).1
    have hhead := congrArg (fun text => text.toList.head?) hstems
    simp at hhead
  · exact numbered_ne_plain (registry_endsPlain _) hname

/-! ### Names with numbers -/

/-- The names are distinct and were given numbers from `lo` on and below `hi`. -/
structure Named (lo hi : Nat) (names : List String) : Prop where
  nodup : names.Nodup
  generated : ∀ name ∈ names, ∃ n, lo ≤ n ∧ n < hi ∧ Generated n name

namespace Named

variable {lo mid hi n : Nat} {name : String} {names first second : List String}

theorem nil (lo hi : Nat) : Named lo hi [] :=
  ⟨List.nodup_nil, fun _ h => absurd h List.not_mem_nil⟩

theorem single (h : Generated n name) : Named n (n + 1) [name] := by
  refine ⟨List.nodup_singleton _, fun other hother => ?_⟩
  obtain rfl := List.mem_singleton.mp hother
  exact ⟨n, Nat.le_refl n, Nat.lt_succ_self n, h⟩

theorem perm (h : Named lo hi second) (hperm : first.Perm second) : Named lo hi first :=
  ⟨hperm.nodup_iff.mpr h.nodup, fun name hname => h.generated name (hperm.mem_iff.mp hname)⟩

/-- Names with lower numbers and names with higher numbers. -/
theorem append (hfirst : Named lo mid first) (hsecond : Named mid hi second) (hlo : lo ≤ mid)
    (hhi : mid ≤ hi) : Named lo hi (first ++ second) := by
  refine ⟨List.nodup_append.mpr ⟨hfirst.nodup, hsecond.nodup, ?_⟩, fun name hname => ?_⟩
  · rintro name hname _ hname' rfl
    obtain ⟨n, -, hlt, hn⟩ := hfirst.generated name hname
    obtain ⟨m, hle, -, hm⟩ := hsecond.generated name hname'
    have heq := hn.inj hm
    omega
  · rcases List.mem_append.mp hname with hname | hname
    · obtain ⟨n, hle, hlt, hn⟩ := hfirst.generated name hname
      exact ⟨n, hle, by omega, hn⟩
    · obtain ⟨n, hle, hlt, hn⟩ := hsecond.generated name hname
      exact ⟨n, by omega, hlt, hn⟩

end Named

/-! ### The steps made between two states -/

variable {c : Settings} {scope : Scope} {env : Environment} {p : Provider} {s s' t u : State}
  {supply : Supply} {reserved further : List String}

/-- The steps made from one state to another assign names reserved before, and names with numbers given
in the meantime. -/
inductive State.Adds (reserved : List String) (s s' : State) : Prop
  | intro {new : List Step} {fresh : List String} (steps : s'.steps = s.steps ++ new)
      (names : (assignedIn (treeOf new)).Perm (reserved ++ fresh)) (le : s.named ≤ s'.named)
      (named : Named s.named s'.named fresh)

namespace State.Adds

/-- No step was made. -/
theorem none (hsteps : s'.steps = s.steps) (hnamed : s.named ≤ s'.named) : Adds [] s s' := by
  have hnew : s'.steps = s.steps ++ [] := by rw [hsteps, List.append_nil]
  exact .intro hnew (.refl _) hnamed (.nil _ _)

theorem trans (h : Adds reserved s t) (h' : Adds further t u) : Adds (reserved ++ further) s u := by
  obtain ⟨hsteps, hnames, hle, hnamed⟩ := h
  obtain ⟨hsteps', hnames', hle', hnamed'⟩ := h'
  refine .intro (by rw [hsteps', hsteps, List.append_assoc]) ?_ (hle.trans hle')
    (hnamed.append hnamed' hle hle')
  rw [treeOf_append, assignedIn_append]
  refine (hnames.append hnames').trans ?_
  rw [List.append_assoc, List.append_assoc]
  exact (List.perm_append_comm_assoc _ _ _).append_left _

/-- Of the names reserved before a state, some were given their numbers after an earlier one. -/
theorem reserve {names : List String} (h : Adds names t s')
    (hnames : names.Perm (further ++ reserved)) (hreserved : Named s.named t.named reserved)
    (hle : s.named ≤ t.named) (hsteps : t.steps = s.steps) : Adds further s s' := by
  obtain ⟨hnew, htree, hle', hnamed⟩ := h
  refine .intro (hsteps ▸ hnew) ((htree.trans (hnames.append_right _)).trans ?_) (hle.trans hle')
    (hreserved.append hnamed hle hle')
  rw [List.append_assoc]

theorem congr (h : Adds reserved s t) (hsteps : s'.steps = t.steps) (hnamed : s'.named = t.named) :
    Adds reserved s s' := by
  obtain ⟨hnew, hnames, hle, hnew'⟩ := h
  exact .intro (hsteps.trans hnew) hnames (hnamed ▸ hle) (hnamed ▸ hnew')

theorem afterValue (h : Adds reserved s t) (p : Provider) (supply : Supply) :
    Adds reserved s (t.afterValue p supply) := by
  refine h.congr (t.afterValue_steps p supply) ?_
  unfold State.afterValue
  split <;> rfl

/-- One more step assigns its name, and those in its body were assigned before. -/
theorem afterStep (s : State) (step : Step) :
    Adds (step.statement.assigned?.toList ++ assignedIn step.statement.inner) s
      (s.afterStep step) := by
  have hnew : (s.afterStep step).steps = s.steps ++ [step] := rfl
  refine .intro hnew ?_ (Nat.le_refl _) (.nil _ _)
  rw [treeOf_singleton, List.append_nil]
  cases hname : step.statement.assigned? <;> simp [Step.tree, assignedIn, hname]

/-- One more step that holds no body. -/
theorem afterPlain {step : Step} {names : List String} (hbody : step.statement.body? = Option.none)
    (hnames : step.statement.assigned?.toList = names) : Adds names s (s.afterStep step) := by
  have h := afterStep s step
  rwa [Statement.inner_of_no_body hbody, hnames, show assignedIn [] = [] from rfl,
    List.append_nil] at h

/-- One more step that holds a body, assembled in the meantime. -/
theorem afterBody {step : Step} {name : String} {body : Plan}
    (hbody : step.statement.body? = some body) (hname : step.statement.assigned? = some name)
    (hnamed : Named s.named t.named (assignedIn body.tree)) (hle : s.named ≤ t.named)
    (hsteps : t.steps = s.steps) : Adds [name] s (t.afterStep step) := by
  have h := afterStep t step
  rw [Statement.inner_of_body hbody, hname] at h
  exact h.reserve (.refl _) hnamed hle hsteps

end State.Adds

/-! ### The parts of a derivation -/

theorem AsksAccessor.adds (h : AsksAccessor c scope env p s supply s') : State.Adds [] s s' := by
  cases h with
  | @sync answers t asking _ ht hasking =>
      have hasked : State.Adds [variableName p.ty env s.named] t (t.afterStep asking) :=
        .afterPlain (by rw [hasking]; rfl) (by rw [hasking]; rfl)
      subst ht
      exact (hasked.reserve (.refl _) (.single (.value p.ty env)) (Nat.le_succ _) rfl).congr rfl rfl
  | @async answers t asking waiting _ ht hasking hwaiting =>
      have hasked : State.Adds [variableName p.ty env s.named] t (t.afterStep asking) :=
        .afterPlain (by rw [hasking]; rfl) (by rw [hasking]; rfl)
      have hwaited : State.Adds [variableName p.ty env (s.named + 1)] (t.afterStep asking)
          ((t.afterStep asking).afterStep waiting) :=
        .afterPlain (by rw [hwaiting]; rfl) (by rw [hwaiting]; rfl)
      have hreserved : Named s.named (s.named + 1 + 1)
          ([variableName p.ty env s.named] ++ [variableName p.ty env (s.named + 1)]) :=
        (Named.single (.value p.ty env)).append (.single (.value p.ty env)) (Nat.le_succ _)
          (Nat.le_succ _)
      subst ht
      have hadds : State.Adds [] s (State.afterStep _ waiting) :=
        (hasked.trans hwaited).reserve (.refl _) hreserved (Nat.le_add_right s.named 2) rfl
      exact hadds.congr rfl rfl

/-- The steps that create a value assign its variable, which was reserved before, and the variables of
the tasks on the way, which are reserved here. -/
theorem CreatesValue.adds {name : String} {args : List (Option String)} {needs : List Step}
    {step : Step} (h : CreatesValue scope env p name args needs s step s') :
    State.Adds [name] s s' := by
  have htask : Named s.named (s.named + 1) [variableName p.ty env s.named] :=
    .single (.value p.ty env)
  -- The name of the value was reserved before. Where there is a task, its name is reserved here, and
  -- the lists of names are compared up to order, since the task is assigned first.
  cases h with
  | plain _ _ hcreating => exact .afterPlain (by rw [hcreating]; rfl) (by rw [hcreating]; rfl)
  | @awaited t creating waiting _ _ ht hcreating hwaiting =>
      have hcreated : State.Adds [variableName p.ty env s.named] t (t.afterStep creating) :=
        .afterPlain (by rw [hcreating]; rfl) (by rw [hcreating]; rfl)
      have hwaited : State.Adds [name] (t.afterStep creating) ((t.afterStep creating).afterStep step) :=
        .afterPlain (by rw [hwaiting]; rfl) (by rw [hwaiting]; rfl)
      subst ht
      exact (hcreated.trans hwaited).reserve List.perm_append_comm htask (Nat.le_succ _) rfl
  | @initialized creating starting _ _ hcreating hstarting =>
      have hcreated : State.Adds [name] s (s.afterStep creating) :=
        .afterPlain (by rw [hcreating]; rfl) (by rw [hcreating]; rfl)
      have hstarted : State.Adds [] (s.afterStep creating) ((s.afterStep creating).afterStep step) :=
        .afterPlain (by rw [hstarting]; rfl) (by rw [hstarting]; rfl)
      exact hcreated.trans hstarted
  | @initializedAwaited t creating starting waiting _ _ hcreating ht hstarting hwaiting =>
      have hcreated : State.Adds [name] s (s.afterStep creating) :=
        .afterPlain (by rw [hcreating]; rfl) (by rw [hcreating]; rfl)
      have hstarted : State.Adds [variableName p.ty env s.named] t (t.afterStep starting) :=
        .afterPlain (by rw [hstarting]; rfl) (by rw [hstarting]; rfl)
      have hwaited : State.Adds [] (t.afterStep starting) ((t.afterStep starting).afterStep step) :=
        .afterPlain (by rw [hwaiting]; rfl) (by rw [hwaiting]; rfl)
      subst ht
      exact hcreated.trans
        ((hstarted.trans hwaited).reserve (.refl _) htask (Nat.le_succ _) rfl)

/-- A delegate's variable and that of its registry have one number, but differ. -/
theorem Named.registry (ty : Ty) (env : Environment) (n : Nat) :
    Named n (n + 1) [variableName ty env n ++ "_disposeActions", variableName ty env n] := by
  have hne : variableName ty env n ++ "_disposeActions" ≠ variableName ty env n := by
    obtain ⟨stem, -, heq⟩ := variableName_numbered ty env n
    rw [heq]
    exact (numbered_ne_plain (registry_endsPlain _)).symm
  refine ⟨by simp [hne], fun name hname => ⟨n, Nat.le_refl n, Nat.lt_succ_self n, ?_⟩⟩
  rcases List.mem_cons.mp hname with rfl | hname
  · exact .registry ty env
  · obtain rfl := List.mem_singleton.mp hname
    exact .value ty env

/-- The steps that create a delegate around its body assign its variable, and perhaps that of its
registry. Both have the number reserved for the delegate. -/
theorem EmitsDelegate.adds {ty : Ty} {n : Nat} {body : Plan} {needs : List Step} {step : Step}
    (h : EmitsDelegate scope p (variableName ty env n) body needs u step s')
    (hbody : Named t.named u.named (assignedIn body.tree)) (hle : t.named ≤ u.named)
    (hsteps : u.steps = t.steps) :
    ∃ names, State.Adds names t s' ∧ Named n (n + 1) names := by
  cases h with
  | plain _ hcreating =>
      exact ⟨[variableName ty env n],
        .afterBody (by rw [hcreating]; rfl) (by rw [hcreating]; rfl) hbody hle hsteps,
        .single (.value ty env)⟩
  | @registered drain opening _ _ hopening hcreating =>
      -- The name of the registry is that of the delegate with a suffix, so it takes no number of its
      -- own.
      have hopened : State.Adds [variableName ty env n ++ "_disposeActions"] u (u.afterStep opening) :=
        .afterPlain (by rw [hopening]; rfl) (by rw [hopening]; rfl)
      have hcreated := State.Adds.afterStep (u.afterStep opening) step
      have hinner : step.statement.inner = body.tree :=
        Statement.inner_of_body (by rw [hcreating]; rfl)
      have hassigned : step.statement.assigned? = some (variableName ty env n) := by
        rw [hcreating]
        rfl
      rw [hinner, hassigned] at hcreated
      have hall : State.Adds [variableName ty env n ++ "_disposeActions", variableName ty env n] t
          ((u.afterStep opening).afterStep step) :=
        (hopened.trans hcreated).reserve (.refl _) hbody hle hsteps
      exact ⟨_, hall, .registry ty env n⟩

theorem Hoists.adds {isAsync : Bool} {ahead : List Provider}
    (h : Hoists c scope env p isAsync s ahead s') : State.Adds [] s s' := by
  refine .none h.same.1 ?_
  obtain ⟨answers, -, rfl⟩ | ⟨-, rfl⟩ := h.surveyed
  · exact Nat.le_refl _
  · exact Nat.le_refl _

/-! ### Derivations -/

mutual

/-- Obtaining a value makes steps with names of their own. Each name has a number in it that was
reserved for it, and no number is reserved twice. -/
theorem Obtains.adds {c : Settings} {scope : Scope} {isTarget : Bool} {env : Environment}
    {p : Provider} {s s' : State} {supply : Supply} :
    Obtains c scope isTarget env p s supply s' → State.Adds [] s s'
  | .atHand _ => .none rfl (Nat.le_refl _)
  | .parameter _ => .none rfl (Nat.le_refl _)
  | .accessor _ _ hasks => hasks.adds
  -- Numbers reserved are spent or dropped, never used twice: the delegate's own before everything, then
  -- those ahead, then those of its body, as the counter goes.
  | .delegate (t := t) _ _ hname hhoists heach _ hbody hemits => by
      have hahead := hhoists.adds.trans heach.adds
      obtain ⟨hle, hnamed⟩ := hbody.named
      subst hname
      obtain ⟨names, hcreated, hreserved⟩ := hemits.adds hnamed hle hbody.same.1
      have hall := (hahead.trans hcreated).reserve (.refl _) hreserved (Nat.le_succ _) rfl
      exact hall.congr rfl rfl
  | @Obtains.ownedAgain _ _ _ _ _ ty value isAsync name _ t function step _ hname ht _ hstep => by
      subst hname ht
      have hcalled : State.Adds [variableName ty env s.named] s.afterName
          (s.afterName.afterStep step) :=
        .afterPlain (by rw [hstep]; rfl) (by rw [hstep]; rfl)
      exact hcalled.reserve (.refl _) (.single (.value ty env)) (Nat.le_succ _) rfl
  | @Obtains.owned _ _ _ _ _ ty value isAsync name _ t u v function target body defining step _ hname
      ht _ _ hbody hdefining _ hv hstep => by
      obtain ⟨hle, hnamed⟩ := hbody.named
      subst hname ht
      have hdefined := State.Adds.afterStep u.afterName defining
      have hinner : defining.statement.inner = body.tree :=
        Statement.inner_of_body (by rw [hdefining]; rfl)
      have hassigned : defining.statement.assigned? = some (functionName ty u.named) := by
        rw [hdefining]
        rfl
      rw [hinner, hassigned] at hdefined
      -- The function was named after its body was assembled, the value before.
      have hfunction : State.Adds (assignedIn body.tree) u v :=
        (hdefined.reserve List.perm_append_comm (.single (.function ty)) (Nat.le_succ _) rfl).congr
          (by rw [hv]; rfl) (by rw [hv]; rfl)
      have hcalled : State.Adds [variableName ty env s.named] v (v.afterStep step) :=
        .afterPlain (by rw [hstep]; rfl) (by rw [hstep]; rfl)
      have hbodied : State.Adds [] s.afterName v :=
        hfunction.reserve (.refl _) hnamed hle hbody.same.1
      exact (hbodied.trans hcalled).reserve (.refl _) (.single (.value ty env)) (Nat.le_succ _) rfl
  | .value _ _ _ hname heach hcreates => by
      have hrequests := heach.adds
      subst hname
      have hcreated := (hrequests.trans hcreates.adds).reserve (.refl _) (.single (.value _ _))
        (Nat.le_succ _) rfl
      exact hcreated.afterValue _ _

/-- Obtaining several values makes steps with names of their own. -/
theorem ObtainsEach.adds {c : Settings} {scope : Scope} {env : Environment}
    {requests : List Request} {s s' : State} {supplies : List (Option Supply)} :
    ObtainsEach c scope env requests s supplies s' → State.Adds [] s s'
  | .nil => .none rfl (Nat.le_refl _)
  | .supplied _ head tail => head.adds.trans tail.adds
  | .leftOut _ _ tail => tail.adds

/-- The names assigned in a body are distinct, and were given numbers while it was assembled. -/
theorem Assembles.named {c : Settings} {scope : Scope} {env : Environment} {target : Provider}
    {known : List (Provider.Identity × Supply)} {s s' : State} {plan : Plan} :
    Assembles c scope env target known s plan s' →
      s.named ≤ s'.named ∧ Named s.named s'.named (assignedIn plan.tree)
  | .body hobtains harranges => by
      obtain ⟨hnew, hnames, hle, hnamed⟩ := hobtains.adds
      refine ⟨hle, hnamed.perm ?_⟩
      rw [Plan.tree_eq]
      exact ((treeOf_perm harranges.perm).filterMap _).trans (by rw [hnew]; exact hnames)

end

/-- No two steps in the tree of a plan assign one name, and every name they assign is generated. -/
theorem run_named {config : Config} {trigger : Trigger} {target : Provider} {plan : Plan}
    (h : run config trigger scope env target = .ok plan) :
    (assignedIn plan.tree).Nodup ∧ ∀ name ∈ assignedIn plan.tree, ∃ n, Generated n name := by
  obtain ⟨s, hassembles⟩ := run_sound h
  obtain ⟨-, hnodup, hgenerated⟩ := hassembles.named
  refine ⟨hnodup, fun name hname => ?_⟩
  obtain ⟨n, -, -, hn⟩ := hgenerated name hname
  exact ⟨n, hn⟩

theorem planResolution_distinct {config : Config} {trigger : Trigger} {isAsync : Bool}
    {target : Provider} {plan : Plan}
    (h : planResolution config trigger env isAsync target = .ok plan) : plan.Distinct := by
  obtain ⟨n, hplanned⟩ := planResolution_planned h
  exact ⟨(hplanned.tree_spec (Surroundings.sound_empty _ _ _)).1, (run_named h).1⟩

end Assembly

end Wiring
