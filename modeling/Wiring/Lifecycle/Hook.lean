/-!
# Dispose hooks

A hook runs once, when an object is released. What it does then is up to whoever made it: it may log
a line, put further hooks on a registry, make a registry or an owned value, run a hook that it holds,
and even drain a registry or dispose of an owned value while that is being done already. In any one
run that ends, a hook does finitely many of these things one after another, so that its `body` lists
them.

A registry collects hooks while objects are made. Draining it takes all of them out and then runs
them, the latest first. Where nothing can wait, the hooks that wait are lost. An owned value has
taken a registry over, which nobody else can reach any more, and drains it when it is disposed of.
-/

namespace Wiring.Lifecycle

/-- What happens when an object is released, given what there is that a hook can do. -/
structure HookOf (δ : Type) where
  /-- Whether it has to be waited for. -/
  isAsync : Bool
  /-- What running it does, in order. -/
  body : List δ
  deriving Inhabited

/-- What a program and the hooks in it do with registries and owned values, each of which has the
number under which it was made. -/
inductive Deed where
  /-- Leaves a line in the log. -/
  | log (line : String)
  | newRegistry
  | push (registry : Nat) (hook : HookOf Deed)
  /-- Takes all hooks out of a registry and runs them, waiting for them or not. -/
  | drain (isAsync : Bool) (registry : Nat)
  /-- Makes an owned value out of a value and the registry that came about with it. -/
  | newOwned (isAsync : Bool) (value : String) (hooks : List (HookOf Deed))
  | dispose (isAsync : Bool) (owned : Nat)
  | run (hook : HookOf Deed)
  deriving Inhabited

/-- What happens when an object is released. -/
abbrev Hook := HookOf Deed

/-- What a hook is called in a message. -/
def Hook.text (h : Hook) : String :=
  if h.isAsync then "DisposeAction::Async" else "DisposeAction::Sync"

/-- The hooks to run when objects are released, in the order in which they came. -/
abbrev Registry := List Hook

namespace Registry

/-- Adds a hook. -/
def push (r : Registry) (h : Hook) : Registry := r ++ [h]

/-- The hooks that a drain runs, in the order in which it does. -/
def drained (r : Registry) (isAsync : Bool) : List Hook :=
  (r.filter fun h => isAsync || !h.isAsync).reverse

end Registry

/-- A value with the hooks that release what was made for it. -/
structure Owned where
  value : String
  /-- The hooks, until it is disposed of. -/
  hooks? : Option Registry
  deriving Inhabited

/-- Whether an owned value was disposed of. -/
def Owned.isDisposed (o : Owned) : Bool := o.hooks?.isNone

/-! ### How much there is to do -/

/-- What the members of a list weigh together. -/
def total {α : Type} (weight : α → Nat) : List α → Nat
  | [] => 0
  | a :: rest => weight a + total weight rest

section

variable {α β : Type} (weight : α → Nat)

@[simp] theorem total_nil : total weight [] = 0 := rfl

@[simp] theorem total_cons (a : α) (rest : List α) :
    total weight (a :: rest) = weight a + total weight rest := rfl

@[simp] theorem total_append (first second : List α) :
    total weight (first ++ second) = total weight first + total weight second := by
  induction first with
  | nil => simp only [List.nil_append, total_nil, Nat.zero_add]
  | cons a first ih => simp only [List.cons_append, total_cons, ih, Nat.add_assoc]

@[simp] theorem total_reverse (as : List α) : total weight as.reverse = total weight as := by
  induction as with
  | nil => rfl
  | cons a as ih =>
      simp only [List.reverse_cons, total_append, total_cons, total_nil, ih]
      omega

theorem total_map (f : β → α) (bs : List β) :
    total weight (bs.map f) = total (fun b => weight (f b)) bs := by
  induction bs with
  | nil => rfl
  | cons b bs ih => simp only [List.map_cons, total_cons, ih]

/-- What weighs no more one by one weighs no more together. -/
theorem total_filter_le (p : α → Bool) (as : List α) : total weight (as.filter p) ≤ total weight as := by
  induction as with
  | nil => exact Nat.le_refl _
  | cons a as ih =>
      simp only [List.filter_cons, total_cons]
      split
      · simp only [total_cons]
        omega
      · omega

/-- What changing one member of a list changes in its weight. -/
theorem total_modify (g : α → α) (as : List α) (n : Nat) :
    total weight (as.modify n g) + (as[n]?.map weight).getD 0 =
      total weight as + (as[n]?.map fun a => weight (g a)).getD 0 := by
  induction as generalizing n with
  | nil => cases n <;> rfl
  | cons a as ih =>
      cases n with
      | zero =>
          simp only [List.modify_zero_cons, total_cons, List.getElem?_cons_zero, Option.map_some,
            Option.getD_some]
          omega
      | succ n =>
          have := ih n
          simp only [List.modify_succ_cons, total_cons, List.getElem?_cons_succ]
          omega

end

/-- How much a list of hooks can do. -/
noncomputable def Registry.weight (r : Registry) : Nat := total sizeOf r

theorem Registry.weight_le (r : Registry) : r.weight ≤ sizeOf r := by
  induction r with
  | nil => exact Nat.zero_le _
  | cons h r ih =>
      simp only [weight, total_cons, List.cons.sizeOf_spec] at ih ⊢
      omega

/-- A drain runs no more than there is. -/
theorem Registry.weight_drained (r : Registry) (isAsync : Bool) :
    weight (r.drained isAsync) ≤ r.weight := by
  rw [weight, drained, total_reverse]
  exact total_filter_le _ _ _

/-- How much the hooks of an owned value can do. -/
noncomputable def Owned.weight (o : Owned) : Nat := (o.hooks?.getD []).weight

/-- How much a deed can do. Running a hook takes no more than the hook itself. -/
noncomputable def Deed.weight : Deed → Nat
  | .run hook => sizeOf hook
  | deed => sizeOf deed

theorem Deed.weight_le (deed : Deed) : deed.weight ≤ sizeOf deed := by
  cases deed with
  | run hook =>
      simp only [weight, run.sizeOf_spec]
      omega
  | _ => exact Nat.le_refl _

/-- How much a list of deeds can do. -/
noncomputable def Deed.weights (todo : List Deed) : Nat := total weight todo

end Wiring.Lifecycle
