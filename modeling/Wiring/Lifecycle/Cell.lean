import Wiring.Lifecycle.Hook

/-!
# Containers and cells

A running container is little more than a flag: whether its disposal has begun. A cell holds the only
instance of a value, created at the first request; no cell creates anything for a container whose
disposal has begun. The creator may begin the disposal itself. It is told like everyone else whether it
is the first to do so, and its value is stored all the same.
-/

namespace Wiring.Lifecycle

/-- A running container. -/
structure Container where
  name : String
  isDisposed : Bool := false
  deriving DecidableEq, Inhabited

/-- A container was used after its disposal had begun. -/
structure ObjectDisposed where
  container : String
  deriving DecidableEq, Inhabited

/-- What is wrong with the use of a disposed container. -/
def ObjectDisposed.message (e : ObjectDisposed) : String :=
  "Cannot access a disposed container: " ++ e.container

/-- Begins the disposal of a container. The answer says whether it had not begun before. -/
def Container.begin (c : Container) : Bool × Container :=
  (!c.isDisposed, { c with isDisposed := true })

/-- What a creator leaves of the containers, which may begin the disposal of the one it creates for. -/
def Container.afterCreation (containers : List Container) (number : Nat) (disposes : Bool) :
    List Container :=
  if disposes then containers.modify number fun c => c.begin.2 else containers

/-- What a creator is told if it begins the disposal of the container that it creates for. -/
def Container.toldCreator (containers : List Container) (number : Nat) (disposes : Bool) :
    Option Bool :=
  if disposes then containers[number]?.map fun c => c.begin.1 else none

/-- Fails if the disposal of a container has begun. -/
def Container.ensureLive (c : Container) : Except ObjectDisposed Unit :=
  if c.isDisposed then .error ⟨c.name⟩ else .ok ()

/-- The place of a single instance, with the hook that releases it. -/
structure Cell (α : Type) where
  value? : Option α := none
  hook? : Option Hook := none
  deriving Inhabited

namespace Cell

/-- Stores a value that was created and its hook. -/
def store {α : Type} (_ : Cell α) (value : α) (hook? : Option Hook) : Cell α :=
  ⟨some value, hook?⟩

/-- The instance for a container, created if there is none yet. Creating may act on a state. -/
def getOrCreate {α σ : Type} (cell : Cell α) (container : Container)
    (create : σ → (α × Option Hook) × σ) (state : σ) :
    Except ObjectDisposed α × Cell α × σ :=
  match container.ensureLive with
  | .error e => (.error e, cell, state)
  | .ok () =>
      match cell.value? with
      | some value => (.ok value, cell, state)
      | none =>
          let ((value, hook?), state) := create state
          (.ok value, cell.store value hook?, state)

/-- Takes out the hook, so that it is handed out once only. -/
def takeHook {α : Type} (cell : Cell α) : Option Hook × Cell α :=
  (cell.hook?, { cell with hook? := none })

end Cell

end Wiring.Lifecycle
