import Wiring.Proofs.Plan.Sharing

/-!
# The values of a plan

Steps make values and hand them on under the names of variables. A value that suspends is handed out as
a task first; the step that waits for the task holds the value.

* `Statement.value?` — the provider whose value a step makes available.
* `Step.Finishes` — the step after which a variable holds the value, declared with the value's type.
* `Delivers` — a step behind which the value is there.
* `argumentsFor` — the arguments that come from providers of some kind.
-/

namespace Wiring

/-- The provider whose value a statement makes available: it asks for a singleton, creates a delegate
or a value, or calls the function of an owned value. -/
def Statement.value? : Statement → Option Provider
  | .single _ p _ | .delegate _ p _ _ | .create _ p _ | .owned _ p _ _ => some p
  | .registry .. | .ownedFunction .. | .start .. | .await .. => none

/-- The variable of the statement holds a task, of a value or of an initialization. -/
def Statement.givesTask : Statement → Bool
  | .start (some _) _ _ => true
  | statement => statement.holdsTask

theorem Statement.assigned?_of_declaration {statement : Statement} {name : String} {ty : Ty}
    (h : statement.declaration? = some ⟨name, ty⟩) : statement.assigned? = some name := by
  unfold Statement.declaration? at h
  split at h <;> cases h <;> rfl

/-- The step after which `name` holds the value of `p` that `maker` makes: the maker itself, or the step
that waits for its task. It declares the variable with the type of the value. -/
inductive Step.Finishes (p : Provider) (name : String) (maker : Step) : Step → Prop
  | own (hvalue : maker.statement.holdsTask = false)
      (hdeclared : maker.statement.declaration? = some ⟨name, p.ty⟩) : Finishes p name maker maker
  | awaited {task : String} {waiting : Step} (htask : maker.statement.holdsTask = true)
      (hname : maker.statement.assigned? = some task) (hneeds : waiting.needs = [maker])
      (hwaiting : waiting.statement = .await (some name) task (some p.ty)) :
      Finishes p name maker waiting

namespace Step.Finishes

variable {p q : Provider} {name other : String} {maker maker' last : Step} {steps : List Step}

theorem declared (h : Finishes p name maker last) :
    last.statement.declaration? = some ⟨name, p.ty⟩ := by
  cases h with
  | own _ hdeclared => exact hdeclared
  | awaited _ _ _ hwaiting => rw [hwaiting]; rfl

theorem assigned (h : Finishes p name maker last) : last.statement.assigned? = some name :=
  Statement.assigned?_of_declaration h.declared

theorem handsOver (h : Finishes p name maker last) (hlast : last ∈ steps) :
    HandsOver steps maker name := by
  cases h with
  | own hvalue hdeclared => exact .own hvalue (Statement.assigned?_of_declaration hdeclared)
  | awaited htask hname hneeds hwaiting => exact .awaited htask hname hlast hneeds hwaiting

/-- No task is in the variable then. -/
theorem not_givesTask (h : Finishes p name maker last) (hmaker : maker.statement.value?.isSome = true) :
    last.statement.givesTask = false := by
  cases h with
  | own hvalue _ =>
      unfold Statement.givesTask
      split
      · rename_i hstart
        rw [hstart] at hmaker
        cases hmaker
      · exact hvalue
  | awaited _ _ _ hwaiting => rw [hwaiting]; rfl

/-- One step finishes the value of one maker only. -/
theorem maker_eq (h : Finishes p name maker last) (h' : Finishes q other maker' last)
    (hmaker : maker.statement.value?.isSome = true) (hmaker' : maker'.statement.value?.isSome = true) :
    maker = maker' := by
  cases h with
  | own _ _ =>
      cases h' with
      | own _ _ => rfl
      | awaited _ _ _ hwaiting => rw [hwaiting] at hmaker; cases hmaker
  | awaited _ _ hneeds hwaiting =>
      cases h' with
      | own _ _ => rw [hwaiting] at hmaker'; cases hmaker'
      | awaited _ _ hneeds' _ => simpa using hneeds.symm.trans hneeds'

end Step.Finishes

/-- Behind `step` the value of `p` is in the variable `name`: the steps make it, and `step` is or leads
to the step that finishes it. -/
inductive Delivers (steps : List Step) (p : Provider) (name : String) (step : Step) : Prop
  | intro {maker last : Step} (hstep : step ∈ steps) (hmaker : maker ∈ steps)
      (hvalue : maker.statement.value? = some p) (hlast : last ∈ steps)
      (hfinishes : maker.Finishes p name last) (hreaches : step.Reaches last)

theorem Delivers.mono {steps wider : List Step} {p : Provider} {name : String} {step : Step}
    (h : Delivers steps p name step) (hwider : steps ⊆ wider) : Delivers wider p name step := by
  obtain ⟨hstep, hmaker, hvalue, hlast, hfinishes, hreaches⟩ := h
  exact ⟨hwider hstep, hwider hmaker, hvalue, hwider hlast, hfinishes, hreaches⟩

/-! ### Arguments -/

/-- The variable, the provider and the arguments of a creation. -/
def Statement.creation? : Statement → Option (String × Provider × List (Option String))
  | .create name p args => some (name, p, args)
  | _ => none

theorem Statement.eq_create {statement : Statement} {name : String} {p : Provider}
    {args : List (Option String)} (h : statement.creation? = some (name, p, args)) :
    statement = .create name p args := by
  unfold creation? at h
  split at h <;> cases h
  rfl

/-- The arguments of a statement. -/
def Statement.arguments (statement : Statement) : List String :=
  (statement.creation?.map fun creation => creation.2.2.filterMap id).getD []

/-- The arguments supplied for requests that a provider of the given kind satisfies. -/
def argumentsFor (which : Provider → Bool) (requests : List Request) (args : List (Option String)) :
    List String :=
  (requests.zip args).filterMap fun entry => if entry.1.provider?.any which then entry.2 else none

section

variable {which : Provider → Bool} {requests : List Request} {args : List (Option String)} {v : String}

theorem mem_argumentsFor :
    v ∈ argumentsFor which requests args ↔ ∃ request q, (request, some v) ∈ requests.zip args ∧
      request.provider? = some q ∧ which q = true := by
  simp only [argumentsFor, List.mem_filterMap, Prod.exists, Option.ite_none_right_eq_some,
    Option.any_eq_true]
  constructor
  · rintro ⟨request, _, hmem, ⟨q, hq, hwhich⟩, rfl⟩
    exact ⟨request, q, hmem, hq, hwhich⟩
  · rintro ⟨request, q, hmem, hq, hwhich⟩
    exact ⟨request, some v, hmem, ⟨q, hq, hwhich⟩, rfl⟩

theorem argumentsFor_cons (request : Request) (arg : Option String) :
    argumentsFor which (request :: requests) (arg :: args) =
      (if request.provider?.any which then arg.toList else []) ++ argumentsFor which requests args := by
  cases arg with
  | none => simp [argumentsFor]
  | some v => by_cases hwhich : request.provider?.any which = true <;> simp [argumentsFor, hwhich]

/-- A variable that stands only for providers of the kind is found by them. -/
theorem count_argumentsFor (hlength : requests.length = args.length)
    (h : ∀ request, (request, some v) ∈ requests.zip args → request.provider?.any which = true) :
    (argumentsFor which requests args).count v = (args.filterMap id).count v := by
  induction requests generalizing args with
  | nil =>
      obtain rfl := List.eq_nil_of_length_eq_zero hlength.symm
      rfl
  | cons request requests ih =>
      cases args with
      | nil => cases hlength
      | cons arg args =>
          have htail := ih (Nat.succ.inj hlength) fun request hmem =>
            h request (List.mem_cons_of_mem _ hmem)
          rw [argumentsFor_cons, List.count_append, htail]
          cases arg with
          | none => simp
          | some w =>
              by_cases heq : w = v
              · subst heq
                rw [if_pos (h request List.mem_cons_self)]
                simp [Nat.add_comm]
              · split <;> simp [heq]

end

end Wiring
