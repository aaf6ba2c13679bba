import Wiring.Lifecycle.Hook

/-!
# What hooks act on

A ledger holds the registries and the owned values that were made, and the lines of the log. A deed
changes it at once (`Ledger.apply`) and may have others follow (`Ledger.follow`): a drain has the
hooks run that it took out, and a hook that is run does what its body lists. All that happens, one
thing after another, is the `Ledger.course` of the deeds, and it comes to an end, for every hook is run
once at most.
-/

namespace Wiring.Lifecycle

/-- The registries, the owned values, and the lines of the log: all that hooks can change. -/
structure Ledger where
  registries : List Registry
  owned : List Owned
  /-- The owned values whose hooks can wait. -/
  asyncOwned : List Owned
  lines : List String
  deriving Inhabited

namespace Ledger

/-- No registries and no owned values, nothing logged. -/
def empty : Ledger := ⟨[], [], [], []⟩

/-- Adds a line to the log. -/
def log (l : Ledger) (line : String) : Ledger := { l with lines := l.lines ++ [line] }

/-- The hooks on a registry. -/
def registry (l : Ledger) (registry : Nat) : Registry := (l.registries[registry]?).getD []

/-- The owned values of a kind. -/
def ownedOf (l : Ledger) (isAsync : Bool) : List Owned :=
  if isAsync then l.asyncOwned else l.owned

/-- Replaces the owned values of a kind. -/
def withOwned (l : Ledger) (isAsync : Bool) (owned : List Owned) : Ledger :=
  if isAsync then { l with asyncOwned := owned } else { l with owned }

/-- The hooks that an owned value still has. -/
def hooksOf (l : Ledger) (isAsync : Bool) (owned : Nat) : Registry :=
  ((l.ownedOf isAsync)[owned]?.bind Owned.hooks?).getD []

/-- What a deed changes itself. Draining empties the registry before any hook is run, and an owned
value has lost its hooks by then. -/
def apply (l : Ledger) : Deed → Ledger
  | .log line => l.log line
  | .newRegistry => { l with registries := l.registries ++ [[]] }
  | .push registry hook => { l with registries := l.registries.modify registry (·.push hook) }
  | .drain _ registry => { l with registries := l.registries.modify registry fun _ => [] }
  | .newOwned isAsync value hooks => l.withOwned isAsync (l.ownedOf isAsync ++ [⟨value, some hooks⟩])
  | .dispose isAsync owned =>
      l.withOwned isAsync ((l.ownedOf isAsync).modify owned fun o => { o with hooks? := none })
  | .run _ => l

/-- The deeds that follow from a deed, to be done before anything else: a drain and a disposal have
hooks to run, and a hook has its body. -/
def follow (l : Ledger) : Deed → List Deed
  | .drain isAsync registry => ((l.registry registry).drained isAsync).map .run
  | .dispose isAsync owned => ((l.hooksOf isAsync owned).drained isAsync).map .run
  | .run hook => hook.body
  | _ => []

/-! ### Every course ends -/

/-- How much all hooks together can do that are still to be run. -/
noncomputable def weight (l : Ledger) : Nat :=
  total Registry.weight l.registries + total Owned.weight l.owned + total Owned.weight l.asyncOwned

theorem weight_withOwned (l : Ledger) (isAsync : Bool) (owned : List Owned) :
    (l.withOwned isAsync owned).weight + total Owned.weight (l.ownedOf isAsync) =
      l.weight + total Owned.weight owned := by
  cases isAsync
  · change total _ l.registries + total _ owned + total _ l.asyncOwned + total _ l.owned =
      total _ l.registries + total _ l.owned + total _ l.asyncOwned + total _ owned
    omega
  · change total _ l.registries + total _ l.owned + total _ owned + total _ l.asyncOwned =
      total _ l.registries + total _ l.owned + total _ l.asyncOwned + total _ owned
    omega

theorem weights_append (first second : List Deed) :
    Deed.weights (first ++ second) = Deed.weights first + Deed.weights second :=
  total_append _ first second

theorem weights_map_run (hooks : Registry) : Deed.weights (hooks.map .run) = hooks.weight :=
  total_map _ _ hooks

/-- What a hook lists is less than the hook. -/
theorem weights_body (hook : Hook) : Deed.weights hook.body < sizeOf hook := by
  have hlist : ∀ body : List Deed, Deed.weights body ≤ sizeOf body := by
    intro body
    induction body with
    | nil => exact Nat.zero_le _
    | cons deed body ih =>
        have hdeed := deed.weight_le
        simp only [Deed.weights, total_cons, List.cons.sizeOf_spec] at ih ⊢
        omega
  obtain ⟨isAsync, body⟩ := hook
  have := hlist body
  simp only [HookOf.mk.sizeOf_spec]
  omega

/-- Draining a registry takes away from it at least what is run. -/
theorem weight_drain (l : Ledger) (isAsync : Bool) (r : Nat) :
    total Registry.weight (l.registries.modify r fun _ => []) +
        Registry.weight ((l.registry r).drained isAsync) ≤ total Registry.weight l.registries := by
  have hmodify := total_modify Registry.weight (fun _ => []) l.registries r
  have hdrained := (l.registry r).weight_drained isAsync
  unfold registry at hdrained ⊢
  cases hr : l.registries[r]? with
  | none =>
      simp only [hr, Option.map_none, Option.getD_none] at hmodify hdrained ⊢
      have hnone : Registry.weight [] = 0 := rfl
      omega
  | some hooks =>
      simp only [hr, Option.map_some, Option.getD_some] at hmodify hdrained ⊢
      have hnone : Registry.weight [] = 0 := rfl
      omega

/-- Disposing of an owned value takes away from it at least what is run. -/
theorem weight_dispose (l : Ledger) (isAsync : Bool) (number : Nat) :
    total Owned.weight ((l.ownedOf isAsync).modify number fun o => { o with hooks? := none }) +
        Registry.weight ((l.hooksOf isAsync number).drained isAsync) ≤
      total Owned.weight (l.ownedOf isAsync) := by
  have hmodify :=
    total_modify Owned.weight (fun o => { o with hooks? := none }) (l.ownedOf isAsync) number
  have hdrained := (l.hooksOf isAsync number).weight_drained isAsync
  have hnone : Registry.weight [] = 0 := rfl
  unfold hooksOf at hdrained ⊢
  cases ho : (l.ownedOf isAsync)[number]? with
  | none =>
      simp only [ho, Option.map_none, Option.bind_none, Option.getD_none] at hmodify hdrained ⊢
      omega
  | some o =>
      simp only [ho, Option.map_some, Option.bind_some, Option.getD_some, Owned.weight,
        Option.getD_none] at hmodify hdrained ⊢
      omega

/-- What a deed adds for the hooks and the deeds to come is less than the deed itself. So every program
of pushes and drains, however its hooks push and drain again, comes to an end. -/
theorem weight_apply (l : Ledger) (deed : Deed) :
    (l.apply deed).weight + Deed.weights (l.follow deed) < l.weight + deed.weight := by
  cases deed with
  | log line =>
      change l.weight + 0 < l.weight + sizeOf (Deed.log line)
      simp only [Deed.log.sizeOf_spec]
      omega
  | newRegistry =>
      change total Registry.weight (l.registries ++ [[]]) + total Owned.weight l.owned +
        total Owned.weight l.asyncOwned + 0 < l.weight + sizeOf Deed.newRegistry
      have hnone : Registry.weight [] = 0 := rfl
      simp only [weight, total_append, total_cons, total_nil, Deed.newRegistry.sizeOf_spec]
      omega
  -- The hook moves from the deed to the registry.
  | push registry hook =>
      have hmodify := total_modify Registry.weight (·.push hook) l.registries registry
      have hpush : ∀ r : Registry, (r.push hook).weight = r.weight + sizeOf hook := fun r => by
        simp only [Registry.weight, Registry.push, total_append, total_cons, total_nil, Nat.add_zero]
      simp only [apply, follow, weight, Deed.weights, Deed.weight, total_nil, Deed.push.sizeOf_spec]
      cases hr : l.registries[registry]? <;>
        simp only [hr, hpush, Option.map_none, Option.map_some, Option.getD_none,
          Option.getD_some] at hmodify <;> omega
  -- The hooks found weigh as much in the registry as they do as deeds, with the deed itself left over.
  | drain isAsync registry =>
      have hdrain := l.weight_drain isAsync registry
      rw [follow, weights_map_run]
      simp only [apply, weight, Deed.weight, Deed.drain.sizeOf_spec]
      omega
  | newOwned isAsync value hooks =>
      have hmade := l.weight_withOwned isAsync (l.ownedOf isAsync ++ [⟨value, some hooks⟩])
      have hhooks := Registry.weight_le hooks
      simp only [total_append, total_cons, total_nil, Owned.weight, Option.getD_some] at hmade
      simp only [apply, follow, Deed.weights, Deed.weight, total_nil, Deed.newOwned.sizeOf_spec]
      omega
  | dispose isAsync owned =>
      have hmade := l.weight_withOwned isAsync
        ((l.ownedOf isAsync).modify owned fun o => { o with hooks? := none })
      have hdispose := l.weight_dispose isAsync owned
      rw [follow, weights_map_run]
      simp only [apply, Deed.weight, Deed.dispose.sizeOf_spec]
      omega
  | run hook => exact Nat.add_lt_add_left (weights_body hook) l.weight

/-- All that happens when deeds are done one after another: each stands before what follows from it, and
that before the next. -/
def course (l : Ledger) : List Deed → List Deed
  | [] => []
  | deed :: rest => deed :: (l.apply deed).course (l.follow deed ++ rest)
termination_by todo => l.weight + Deed.weights todo
decreasing_by
  have hless := l.weight_apply deed
  have happend := weights_append (l.follow deed) rest
  have hcons : Deed.weights (deed :: rest) = deed.weight + Deed.weights rest := rfl
  omega

/-- The ledger when a course has been taken. -/
def replay (l : Ledger) (deeds : List Deed) : Ledger := deeds.foldl apply l

/-- The ledger when deeds have been done, with all that followed from them. -/
def after (l : Ledger) (todo : List Deed) : Ledger := l.replay (l.course todo)

end Ledger

end Wiring.Lifecycle
