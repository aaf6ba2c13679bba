import Wiring.Lifecycle.Cell

/-!
# Tasks that share a cell

Several tasks use one cell at the same time. They are polled in rounds, each unfinished task once in
a round and always in the same order. A task that asks for the instance creates it if it has to, and
creating takes waiting; a lock sees to it that one task creates at a time. Other tasks begin the
disposal of a container in the midst of this.

The lock is fair. It is the line of the tasks that want it: the first in line holds it, and a task
leaves the line when it ends or is dropped.
-/

namespace Wiring.Lifecycle

/-- How an instance is created: what it is called, what releases it, and how long creating it takes. -/
structure Creation where
  value : String
  /-- The hook that releases the instance. -/
  hook? : Option Hook
  /-- How often creating it waits. -/
  yields : Nat
  deriving Inhabited

/-- What a task does. -/
inductive Job where
  /-- Asks the cell for its instance. Creating it may begin the disposal of the container. -/
  | obtain (creation : Creation) (disposes : Bool := false)
  /-- Waits, then begins the disposal of the container. -/
  | dispose (yields : Nat)
  deriving Inhabited

/-- A task: what it does, for which container, and when it is dropped. -/
structure Task where
  job : Job
  /-- The container that the task belongs to. -/
  container : Nat
  /-- The round after which the task is dropped, unless it has ended. -/
  dropAfter? : Option Nat
  deriving Inhabited

/-- How a task ended, with what it was given or told. -/
inductive Outcome where
  /-- Was given the instance or refused. If its creator ran and began the disposal, it was told whether
  that had not begun before. -/
  | obtained (result : Except ObjectDisposed String) (told? : Option Bool := none)
  /-- Began the disposal, which had not begun before if the answer is `true`. -/
  | began (first : Bool)
  | dropped

/-- How far a task has come, between one poll and the next. -/
inductive Progress where
  | fresh
  /-- Wants the lock. -/
  | queued
  /-- Waits this many times more before it does the last of its work. -/
  | waiting (left : Nat)
  | ended (outcome : Outcome)
  deriving Inhabited

/-- Whether a task has ended. -/
def Progress.isEnded : Progress → Bool
  | .ended _ => true
  | _ => false

/-- What the tasks share: the containers, the cell they ask, the tasks that wait for it in turn, and the
log. -/
structure Floor where
  containers : List Container
  cell : Cell String
  /-- The tasks that want the lock. The first one holds it. -/
  line : List Nat
  /-- The lines logged. -/
  lines : List String
  deriving Inhabited

namespace Floor

/-- A container of the tasks. -/
def container (s : Floor) (number : Nat) : Container := (s.containers[number]?).getD default

/-- Adds a line to the log. -/
def log (s : Floor) (line : String) : Floor := { s with lines := s.lines ++ [line] }

/-- Takes a task out of the line for the lock. -/
def leave (s : Floor) (task : Nat) : Floor := { s with line := s.line.erase task }

/-- Ends a task that was in line. -/
def finish (s : Floor) (task : Nat) (result : Except ObjectDisposed String)
    (told? : Option Bool := none) : Progress × Floor :=
  (.ended (.obtained result told?), s.leave task)

/-- Goes on creating the instance, in the task that holds the lock. -/
def create (s : Floor) (task container : Nat) (creation : Creation) (disposes : Bool) :
    (left : Nat) → Progress × Floor
  | left + 1 => (.waiting left, s)
  | 0 =>
      let s := s.log ("end " ++ creation.value)
      finish { s with
        containers := Container.afterCreation s.containers container disposes
        cell := s.cell.store creation.value creation.hook? } task (.ok creation.value)
        (Container.toldCreator s.containers container disposes)

/-- Asks for the instance, in a task that is in line: what happened while it stood there is looked
at first. -/
def enter (s : Floor) (task container : Nat) (creation : Creation) (disposes : Bool) :
    Progress × Floor :=
  if s.line.head? = some task then
    match s.cell.value? with
    | some value => s.finish task (.ok value)
    | none =>
        match (s.container container).ensureLive with
        | .error e => s.finish task (.error e)
        | .ok () =>
            (s.log ("start " ++ creation.value)).create task container creation disposes
              creation.yields
  else (.queued, s)

/-- Waits, and begins the disposal of a container at last. -/
def dispose (s : Floor) (container : Nat) : (left : Nat) → Progress × Floor
  | left + 1 => (.waiting left, s)
  | 0 =>
      let (first, disposed) := (s.container container).begin
      (.ended (.began first), { s with containers := s.containers.set container disposed })

/-- Polls a task once: what it does until it has to wait or ends. -/
def poll (s : Floor) (number : Nat) (task : Task) (progress : Progress) : Progress × Floor :=
  match progress, task.job with
  | .ended outcome, _ => (.ended outcome, s)
  | .fresh, .obtain creation disposes =>
      match (s.container task.container).ensureLive, s.cell.value? with
      | .error e, _ => (.ended (.obtained (.error e)), s)
      | .ok (), some value => (.ended (.obtained (.ok value)), s)
      | .ok (), none =>
          enter { s with line := s.line ++ [number] } number task.container creation disposes
  | .queued, .obtain creation disposes => s.enter number task.container creation disposes
  | .waiting left, .obtain creation disposes =>
      s.create number task.container creation disposes left
  | .fresh, .dispose yields | .queued, .dispose yields => s.dispose task.container yields
  | .waiting left, .dispose _ => s.dispose task.container left

/-- Polls a task in a round, and drops it if this was its last. -/
def turn (s : Floor) (round number : Nat) (task : Task) (progress : Progress) :
    Progress × Floor :=
  let (progress, s) := s.poll number task progress
  if !progress.isEnded && task.dropAfter? = some round then (.ended .dropped, s.leave number)
  else (progress, s)

/-- Polls all tasks of a round, the first of which has a number. -/
def round (s : Floor) (count number : Nat) :
    List (Task × Progress) → List (Task × Progress) × Floor
  | [] => ([], s)
  | (task, progress) :: rest =>
      let (progress, s) := s.turn count number task progress
      let (rest, s) := s.round count (number + 1) rest
      ((task, progress) :: rest, s)

/-- Polls tasks round after round until all have ended, for at most as many rounds as given. The
number is how many rounds there were before. -/
def rounds (s : Floor) (tasks : List (Task × Progress)) :
    (most count : Nat) → List (Task × Progress) × Nat × Floor
  | 0, count => (tasks, count, s)
  | most + 1, count =>
      if tasks.all (·.2.isEnded) then (tasks, count, s)
      else
        let (tasks, s) := s.round (count + 1) 0 tasks
        s.rounds tasks most (count + 1)

end Floor

/-- How many rounds a task can keep all others waiting. -/
def Task.patience (task : Task) : Nat :=
  match task.job with
  | .obtain creation _ => creation.yields + 1
  | .dispose yields => yields + 1

/-- The outcomes of tasks that share a cell, the number of rounds, and what they leave. In every round
after the first a task that holds the lock or begins a disposal comes nearer to its end, so the rounds
are no more than the tasks have to wait together. -/
def Floor.join (s : Floor) (tasks : List Task) : List Outcome × Nat × Floor :=
  let most := tasks.foldl (fun sum task => sum + task.patience) 1
  let (tasks, count, s) := s.rounds (tasks.map (·, .fresh)) most 0
  (tasks.map fun (_, progress) =>
    match progress with
    | .ended outcome => outcome
    | _ => .dropped, count, s)

end Wiring.Lifecycle
