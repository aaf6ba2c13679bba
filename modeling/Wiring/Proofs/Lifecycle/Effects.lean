import Wiring.Lifecycle.Store
import Mathlib.Logic.Function.Basic

/-!
# What commands do to containers and cells

A program carries out commands one after another, on objects that it has made itself. What each of
them did can be seen from the answer to it and the lines that it left in the log.

* `Floor.join_lone` — a task that has a cell to itself ends, and how.
* `Event`, `Runs` — a command with what could be seen of it, and the history of a program.
* `Event.Creates`, `Event.Begins`, `Event.Obtains`, `Event.Hands` — what can be seen.
* `Effect`, `Store.run_effect` — all that a command does to a container and the cells.
-/

namespace Wiring.Lifecycle

/-! ### What a cell answers -/

theorem Container.ensureLive_disposed {container : Container} (h : container.isDisposed = true) :
    container.ensureLive = .error ⟨container.name⟩ := by
  simp [ensureLive, h]

theorem Container.ensureLive_live {container : Container} (h : container.isDisposed = false) :
    container.ensureLive = .ok () := by
  simp [ensureLive, h]

namespace Cell

variable {α σ : Type} {cell : Cell α} {container : Container}
  {create : σ → (α × Option Hook) × σ} {state : σ}

/-- Nothing is created for a container whose disposal has begun. -/
theorem getOrCreate_disposed (h : container.isDisposed = true) :
    cell.getOrCreate container create state = (.error ⟨container.name⟩, cell, state) := by
  simp [getOrCreate, Container.ensureLive_disposed h]

/-- An instance that there is is not created again. -/
theorem getOrCreate_found {value : α} (h : container.isDisposed = false)
    (hvalue : cell.value? = some value) :
    cell.getOrCreate container create state = (.ok value, cell, state) := by
  simp [getOrCreate, Container.ensureLive_live h, hvalue]

/-- An empty cell takes what is created for it. -/
theorem getOrCreate_empty (h : container.isDisposed = false) (hvalue : cell.value? = none) :
    cell.getOrCreate container create state =
      (.ok (create state).1.1, cell.store (create state).1.1 (create state).1.2,
        (create state).2) := by
  simp [getOrCreate, Container.ensureLive_live h, hvalue]

end Cell

/-! ### A task on its own -/

namespace Floor

/-- A task on its own that has ended is not polled again. -/
theorem rounds_ended (s : Floor) (task : Task) (outcome : Outcome) (most count : Nat) :
    s.rounds [(task, .ended outcome)] most count = ([(task, .ended outcome)], count, s) := by
  cases most <;> simp [rounds, Progress.isEnded]

/-- A task on its own that goes on is polled once in a round. -/
theorem rounds_lone {s t : Floor} {task : Task} {progress next : Progress} (more count : Nat)
    (hgoes : progress.isEnded = false) (hstays : task.dropAfter? = none)
    (hpoll : s.poll 0 task progress = (next, t)) :
    s.rounds [(task, progress)] (more + 1) count = t.rounds [(task, next)] more (count + 1) := by
  simp [rounds, round, turn, hgoes, hstays, hpoll]

/-- A task on its own that is creating the instance waits as often as it has to, and ends in the next
round. The induction is on how often this is. -/
theorem rounds_waiting (s : Floor) (creation : Creation) (disposes : Bool) (number : Nat)
    (left more count : Nat) :
    s.rounds [(⟨.obtain creation disposes, number, none⟩, .waiting left)] (more + left + 1) count =
      ([(⟨.obtain creation disposes, number, none⟩, (s.create 0 number creation disposes 0).1)],
        count + left + 1, (s.create 0 number creation disposes 0).2) := by
  induction left generalizing count with
  | zero =>
      rw [rounds_lone (more + 0) count rfl rfl rfl]
      exact rounds_ended ..
  | succ left ih =>
      rw [rounds_lone (more + (left + 1)) count rfl rfl rfl]
      refine (ih (count + 1)).trans ?_
      rw [Nat.add_right_comm count 1 left, Nat.add_assoc count left 1]

/-- A task that has a cell to itself ends: it is refused if the disposal of its container has begun,
it finds the instance that there is, or it creates one. -/
theorem join_lone (containers : List Container) (cell : Cell String) (lines : List String)
    (creation : Creation) (disposes : Bool) (number : Nat) :
    join ⟨containers, cell, [], lines⟩ [⟨.obtain creation disposes, number, none⟩] =
      match ((containers[number]?).getD default).ensureLive, cell.value? with
      | .error e, _ => ([.obtained (.error e)], 1, ⟨containers, cell, [], lines⟩)
      | .ok (), some value => ([.obtained (.ok value)], 1, ⟨containers, cell, [], lines⟩)
      | .ok (), none =>
          ([.obtained (.ok creation.value) (Container.toldCreator containers number disposes)],
            creation.yields + 1,
            ⟨Container.afterCreation containers number disposes,
              cell.store creation.value creation.hook?, [],
              lines ++ ["start " ++ creation.value] ++ ["end " ++ creation.value]⟩) := by
  -- The rounds are as many as its waits and two more, so they do not run out before it ends.
  have hmost : [(⟨.obtain creation disposes, number, none⟩ : Task)].foldl
      (fun sum task => sum + task.patience) 1 = creation.yields + 1 + 1 := by
    simp [Task.patience, Nat.add_comm]
  unfold join
  rw [hmost]
  cases hlive : ((containers[number]?).getD default).ensureLive with
  | error e =>
      have hpoll : poll ⟨containers, cell, [], lines⟩ 0 ⟨.obtain creation disposes, number, none⟩
          .fresh = (.ended (.obtained (.error e)), ⟨containers, cell, [], lines⟩) := by
        simp [poll, container, hlive]
      simp [rounds_lone _ 0 rfl rfl hpoll, rounds_ended]
  | ok =>
      cases hvalue : cell.value? with
      | some value =>
          have hpoll : poll ⟨containers, cell, [], lines⟩ 0
              ⟨.obtain creation disposes, number, none⟩ .fresh =
                (.ended (.obtained (.ok value)), ⟨containers, cell, [], lines⟩) := by
            simp [poll, container, hlive, hvalue]
          simp [rounds_lone _ 0 rfl rfl hpoll, rounds_ended]
      | none =>
          -- Its first poll takes it to where it would be after one wait less, or to its end.
          have hpoll : poll ⟨containers, cell, [], lines⟩ 0
              ⟨.obtain creation disposes, number, none⟩ .fresh =
                create ⟨containers, cell, [0], lines ++ ["start " ++ creation.value]⟩ 0 number
                  creation disposes creation.yields := by
            simp [poll, container, hlive, hvalue, enter, log]
          cases hyields : creation.yields with
          | zero =>
              rw [hyields] at hpoll
              simp [rounds_lone _ 0 rfl rfl hpoll, rounds_ended, log, leave]
          | succ left =>
              rw [hyields] at hpoll
              have hrest := rounds_waiting
                ⟨containers, cell, [0], lines ++ ["start " ++ creation.value]⟩ creation disposes
                number left 1 1
              rw [Nat.add_comm 1 left] at hrest
              simp [rounds_lone _ 0 rfl rfl hpoll, hrest, create, finish, log, leave]

end Floor

/-! ### The history of a program -/

/-- A command that was carried out, with what could be seen of it. -/
structure Event where
  command : Command
  answer : Answer
  lines : List String

/-- A program that starts without objects carries out commands. What happened is listed with the
objects that it has then. -/
inductive Runs : List Event → Store → Prop where
  | start : Runs [] .empty
  | next {events : List Event} {s t : Store} {command : Command} {answer : Answer}
      {lines : List String} (before : Runs events s)
      (step : s.run command = some (answer, lines, t)) :
      Runs (events ++ [⟨command, answer, lines⟩]) t

/-- A history is made up to each of its events in turn. -/
theorem Runs.upTo {events before after : List Event} {s : Store} {e : Event} (h : Runs events s)
    (hsplit : events = before ++ e :: after) :
    ∃ s t, Runs before s ∧ s.run e.command = some (e.answer, e.lines, t) := by
  induction h generalizing after with
  | start => simp at hsplit
  | @next earlier s t _ _ _ hearlier hstep ih =>
      obtain rfl | ⟨rest, last, rfl⟩ := List.eq_nil_or_concat after
      · obtain ⟨rfl, hlast⟩ := List.append_inj' hsplit rfl
        cases hlast
        exact ⟨s, t, hearlier, hstep⟩
      · rw [List.concat_eq_append, ← List.cons_append, ← List.append_assoc] at hsplit
        exact ih (List.append_inj' hsplit rfl).1

/-- Which cell. -/
@[ext]
structure CellName where
  isAsync : Bool
  number : Nat
  deriving DecidableEq

/-- A command by which a cell is asked for its instance, with nothing else going on meanwhile. -/
structure Call where
  cell : CellName
  container : Nat
  value : String
  hook? : Option Hook
  disposes : Bool

/-- What a command asks a cell for. -/
def Command.call? : Command → Option Call
  | .getOrCreate cell container value hook? disposes =>
      some ⟨⟨false, cell⟩, container, value, hook?, disposes⟩
  | .join cell [⟨.obtain creation disposes, container, none⟩] =>
      some ⟨⟨true, cell⟩, container, creation.value, creation.hook?, disposes⟩
  | _ => none

/-- Whether a command asks cells for instances of one container only, and of one cell at a time. -/
def Command.IsFor (container : Nat) (command : Command) : Prop :=
  match command.call?, command with
  | some call, _ => call.container = container
  | none, .join .. => False
  | none, _ => True

/-- A single task that asks for the instance and is left to end has the cell to itself. -/
theorem Command.IsFor.join {container cell : Nat} {tasks : List Task}
    (h : (Command.join cell tasks).IsFor container) :
    ∃ creation disposes, tasks = [⟨.obtain creation disposes, container, none⟩] := by
  unfold IsFor at h
  cases hcall : (Command.join cell tasks).call? with
  | none => simp [hcall] at h
  | some call =>
      simp only [hcall] at h
      unfold call? at hcall
      split at hcall
      · simp_all
      · rename_i creation disposes number heq
        cases heq
        cases hcall
        exact ⟨creation, disposes, by rw [← h]⟩
      · cases hcall

/-- What a cell was asked for answered. -/
def Answer.result? : Answer → Option (Except ObjectDisposed String)
  | .obtained result _ | .joined [.obtained result _] _ => some result
  | _ => none

/-- What a creator that ran was told if it began the disposal. -/
def Answer.told? : Answer → Option Bool
  | .obtained _ told? | .joined [.obtained _ told?] _ => told?
  | _ => none

namespace Event

/-- The call whose creator ran, which leaves its lines in the log. -/
def created? (e : Event) : Option Call := if e.lines = [] then none else e.command.call?

/-- A creator ran for a cell. -/
def Creates (e : Event) (cell : CellName) (call : Call) : Prop :=
  e.created? = some call ∧ call.cell = cell

/-- The disposal of a container was begun, by the command itself or by the creator that ran. -/
def Begins (e : Event) (container : Nat) : Prop :=
  e.command = .beginDisposal container ∨
    ∃ call, e.created? = some call ∧ call.container = container ∧ call.disposes = true

/-- A cell was asked for its instance and gave it. -/
def Obtains (e : Event) (cell : CellName) (value : String) : Prop :=
  (∃ call, e.command.call? = some call ∧ call.cell = cell) ∧ e.answer.result? = some (.ok value)

/-- The hook of a cell was handed out. -/
def Hands (e : Event) (cell : CellName) (hook : Hook) : Prop :=
  e.command = .takeHook cell.isAsync cell.number ∧ e.answer = .hook (some hook)

end Event

/-! ### What a command does -/

namespace Store

/-- Whether the disposal of a container has begun. -/
def begun (s : Store) (container : Nat) : Bool :=
  ((s.containers[container]?).getD default).isDisposed

/-- A cell, which is empty as long as it has not been made. -/
def cellAt (s : Store) (cell : CellName) : Cell String :=
  ((s.cellsOf cell.isAsync)[cell.number]?).getD {}

end Store

/-- All that a command does to a container and to the cells. -/
inductive Effect (container : Nat) (s : Store) (e : Event) (t : Store) : Prop where
  | begins (hcommand : e.command = .beginDisposal container)
      (hanswer : e.answer = .flag (!s.begun container)) (hbegun : t.begun container = true)
      (hcells : t.cellAt = s.cellAt)
  | refuses (call : Call) (error : ObjectDisposed) (hcall : e.command.call? = some call)
      (hdisposed : s.begun container = true) (hanswer : e.answer.result? = some (.error error))
      (hlines : e.lines = []) (hbegun : t.begun container = s.begun container)
      (hcells : t.cellAt = s.cellAt)
  | finds (call : Call) (value : String) (hcall : e.command.call? = some call)
      (hlive : s.begun container = false) (hvalue : (s.cellAt call.cell).value? = some value)
      (hanswer : e.answer.result? = some (.ok value)) (hlines : e.lines = [])
      (hbegun : t.begun container = s.begun container) (hcells : t.cellAt = s.cellAt)
  | creates (call : Call) (hcall : e.command.call? = some call)
      (hcontainer : call.container = container)
      (hlive : s.begun container = false) (hvalue : (s.cellAt call.cell).value? = none)
      (hanswer : e.answer.result? = some (.ok call.value))
      (htold : e.answer.told? = if call.disposes then some true else none) (hlines : e.lines ≠ [])
      (hbegun : t.begun container = call.disposes)
      (hcells : t.cellAt = Function.update s.cellAt call.cell ⟨some call.value, call.hook?⟩)
  | takes (cell : CellName) (hcommand : e.command = .takeHook cell.isAsync cell.number)
      (hanswer : e.answer = .hook (s.cellAt cell).hook?)
      (hbegun : t.begun container = s.begun container)
      (hcells : t.cellAt = Function.update s.cellAt cell { s.cellAt cell with hook? := none })
  | other (hcommand : e.command ≠ .beginDisposal container) (hcall : e.command.call? = none)
      (htakes : ∀ cell : CellName, e.command ≠ .takeHook cell.isAsync cell.number)
      (hbegun : t.begun container = s.begun container) (hcells : t.cellAt = s.cellAt)

/-- What the log holds already is of no consequence. -/
theorem Effect.of_ledger {container : Nat} {s t : Store} {e : Event} {ledger : Ledger}
    (h : Effect container { s with ledger } e t) : Effect container s e t := by
  cases h with
  | begins hcommand hanswer hbegun hcells => exact .begins hcommand hanswer hbegun hcells
  | refuses call error hcall hdisposed hanswer hlines hbegun hcells =>
      exact .refuses call error hcall hdisposed hanswer hlines hbegun hcells
  | finds call value hcall hlive hvalue hanswer hlines hbegun hcells =>
      exact .finds call value hcall hlive hvalue hanswer hlines hbegun hcells
  | creates call hcall hcontainer hlive hvalue hanswer htold hlines hbegun hcells =>
      exact .creates call hcall hcontainer hlive hvalue hanswer htold hlines hbegun hcells
  | takes cell hcommand hanswer hbegun hcells => exact .takes cell hcommand hanswer hbegun hcells
  | other hcommand hcall htakes hbegun hcells => exact .other hcommand hcall htakes hbegun hcells

/-- An element like the default changes no lookup when it is put at the end. -/
theorem apply_getD_append {α β : Type} (f : α → β) {a other : α} (h : f a = f other) (l : List α)
    (n : Nat) : f (((l ++ [a])[n]?).getD other) = f ((l[n]?).getD other) := by
  rcases Nat.lt_trichotomy n l.length with hn | rfl | hn
  · rw [List.getElem?_append_left hn]
  · simpa using h
  · rw [List.getElem?_eq_none (by simpa using Nat.succ_le_of_lt hn),
      List.getElem?_eq_none (Nat.le_of_lt hn)]

namespace Store

variable {s t : Store} {answer : Answer} {lines : List String}

theorem cellAt_eq (cell : CellName) {filled : Cell String}
    (h : (s.cellsOf cell.isAsync)[cell.number]? = some filled) : s.cellAt cell = filled := by
  simp [cellAt, h]

theorem begun_eq {number : Nat} {container : Container}
    (h : s.containers[number]? = some container) : s.begun number = container.isDisposed := by
  simp [begun, h]

/-- A cell that was made is changed alone. -/
theorem cellAt_set (isAsync : Bool) {number : Nat} {cell : Cell String}
    (h : (s.cellsOf isAsync)[number]? = some cell) (changed : Cell String) :
    (s.withCells isAsync ((s.cellsOf isAsync).set number changed)).cellAt =
      Function.update s.cellAt ⟨isAsync, number⟩ changed := by
  have hlength := (List.getElem?_eq_some_iff.mp h).1
  funext ⟨kind, other⟩
  by_cases hkind : kind = isAsync
  · subst hkind
    by_cases hother : other = number
    · subst hother
      cases kind <;> simp_all [cellAt, withCells, cellsOf]
    · cases kind <;> simp_all [cellAt, withCells, cellsOf, Function.update, eq_comm]
  · cases kind <;> cases isAsync <;> simp_all [cellAt, withCells, cellsOf, Function.update]

/-- Putting a cell back changes nothing. -/
theorem cellAt_set_self (isAsync : Bool) {number : Nat} {cell : Cell String}
    (h : (s.cellsOf isAsync)[number]? = some cell) :
    (s.withCells isAsync ((s.cellsOf isAsync).set number cell)).cellAt = s.cellAt := by
  rw [cellAt_set isAsync h, ← cellAt_eq ⟨isAsync, number⟩ h, Function.update_eq_self]

/-- A new cell is as empty as it was. -/
theorem cellAt_append (s : Store) (isAsync : Bool) :
    (s.withCells isAsync (s.cellsOf isAsync ++ [({} : Cell String)])).cellAt = s.cellAt := by
  funext ⟨kind, number⟩
  have hend (l : List (Cell String)) :
      ((l ++ [({} : Cell String)])[number]?).getD {} = (l[number]?).getD {} :=
    apply_getD_append id rfl l number
  cases kind <;> cases isAsync <;> simp [cellAt, withCells, cellsOf, hend]

/-- A creator that runs for a container in use decides whether its disposal has begun then. -/
theorem begun_afterCreation {number : Nat} {container : Container} (disposes : Bool)
    (h : s.containers[number]? = some container) (hlive : container.isDisposed = false) :
    begun { s with containers := Container.afterCreation s.containers number disposes } number =
      disposes := by
  cases disposes <;> simp [begun, Container.afterCreation, h, hlive, Container.begin]

/-- A creator that runs for a container in use is the first to begin its disposal. -/
theorem toldCreator_live {number : Nat} {container : Container} (disposes : Bool)
    (h : s.containers[number]? = some container) (hlive : container.isDisposed = false) :
    Container.toldCreator s.containers number disposes = if disposes then some true else none := by
  cases disposes <;> simp [Container.toldCreator, h, hlive, Container.begin]

/-- A call refuses, finds the instance or creates it. -/
theorem getOrCreate_effect {cell container : Nat} {value : String} {hook? : Option Hook}
    {disposes : Bool} (hlog : s.ledger.lines = [])
    (h : s.step (.getOrCreate cell container value hook? disposes) = some (answer, t)) :
    Effect container s
      ⟨.getOrCreate cell container value hook? disposes, answer, t.ledger.lines⟩ t := by
  obtain ⟨filled, hcell, h⟩ := Option.bind_eq_some_iff.mp h
  obtain ⟨used, hused, h⟩ := Option.bind_eq_some_iff.mp h
  have hat : s.cellAt ⟨false, cell⟩ = filled := cellAt_eq _ hcell
  have hbegun := begun_eq hused
  cases hdisposed : used.isDisposed with
  | true =>
      rw [Cell.getOrCreate_disposed hdisposed] at h
      obtain ⟨rfl, rfl⟩ := Prod.mk.inj (Option.some.inj h)
      exact .refuses ⟨⟨false, cell⟩, container, value, hook?, disposes⟩ _ rfl
        (hbegun.trans hdisposed) rfl hlog rfl (cellAt_set_self false hcell)
  | false =>
      cases hvalue : filled.value? with
      | some found =>
          rw [Cell.getOrCreate_found hdisposed hvalue] at h
          obtain ⟨rfl, rfl⟩ := Prod.mk.inj (Option.some.inj h)
          exact .finds ⟨⟨false, cell⟩, container, value, hook?, disposes⟩ found rfl
            (hbegun.trans hdisposed) (hat ▸ hvalue) rfl hlog rfl
            (cellAt_set_self false hcell)
      | none =>
          rw [Cell.getOrCreate_empty hdisposed hvalue] at h
          obtain ⟨rfl, rfl⟩ := Prod.mk.inj (Option.some.inj h)
          exact .creates ⟨⟨false, cell⟩, container, value, hook?, disposes⟩ rfl rfl
            (hbegun.trans hdisposed) (hat ▸ hvalue) rfl (toldCreator_live disposes hused hdisposed)
            (by simp [create, Ledger.log])
            (begun_afterCreation disposes hused hdisposed) (cellAt_set false hcell _)

/-- So does a task that has its cell to itself. -/
theorem join_effect {cell container : Nat} {creation : Creation} {disposes : Bool}
    (hlog : s.ledger.lines = [])
    (h : s.step (.join cell [⟨.obtain creation disposes, container, none⟩]) = some (answer, t)) :
    Effect container s
      ⟨.join cell [⟨.obtain creation disposes, container, none⟩], answer, t.ledger.lines⟩ t := by
  obtain ⟨_, hguard, h⟩ := Option.bind_eq_some_iff.mp h
  obtain ⟨used, hused⟩ : ∃ used, s.containers[container]? = some used := by
    refine ⟨_, List.getElem?_eq_getElem ?_⟩
    by_contra hnot
    cases hguard.symm.trans (if_neg (by simpa using hnot))
  obtain ⟨filled, hcell, h⟩ := Option.bind_eq_some_iff.mp h
  have hat : s.cellAt ⟨true, cell⟩ = filled := cellAt_eq _ hcell
  have hbegun := begun_eq hused
  simp only [Floor.join_lone, hused, Option.getD_some] at h
  cases hdisposed : used.isDisposed with
  | true =>
      rw [Container.ensureLive_disposed hdisposed] at h
      obtain ⟨rfl, rfl⟩ := Prod.mk.inj (Option.some.inj h)
      exact .refuses ⟨⟨true, cell⟩, container, creation.value, creation.hook?, disposes⟩ _ rfl
        (hbegun.trans hdisposed) rfl hlog rfl (cellAt_set_self true hcell)
  | false =>
      rw [Container.ensureLive_live hdisposed] at h
      cases hvalue : filled.value? with
      | some found =>
          rw [hvalue] at h
          obtain ⟨rfl, rfl⟩ := Prod.mk.inj (Option.some.inj h)
          exact .finds ⟨⟨true, cell⟩, container, creation.value, creation.hook?, disposes⟩ found rfl
            (hbegun.trans hdisposed) (hat ▸ hvalue) rfl hlog rfl
            (cellAt_set_self true hcell)
      | none =>
          rw [hvalue] at h
          obtain ⟨rfl, rfl⟩ := Prod.mk.inj (Option.some.inj h)
          exact .creates ⟨⟨true, cell⟩, container, creation.value, creation.hook?, disposes⟩ rfl rfl
            (hbegun.trans hdisposed) (hat ▸ hvalue) rfl (toldCreator_live disposes hused hdisposed)
            (by simp)
            (begun_afterCreation disposes hused hdisposed) (cellAt_set true hcell _)

/-- All that a command does, where nothing is logged yet. -/
theorem step_effect {container : Nat} {command : Command} (hlog : s.ledger.lines = [])
    (hfor : command.IsFor container) (h : s.step command = some (answer, t)) :
    Effect container s ⟨command, answer, t.ledger.lines⟩ t := by
  cases command with
  -- Only these two run creators.
  | getOrCreate cell number value hook? disposes =>
      obtain rfl : number = container := hfor
      exact getOrCreate_effect hlog h
  | join cell tasks =>
      obtain ⟨creation, disposes, rfl⟩ := hfor.join
      exact join_effect hlog h
  | takeHook isAsync cell =>
      obtain ⟨filled, hcell, h⟩ := Option.bind_eq_some_iff.mp h
      obtain ⟨rfl, rfl⟩ := Prod.mk.inj (Option.some.inj h)
      exact .takes ⟨isAsync, cell⟩ rfl (by rw [cellAt_eq ⟨isAsync, cell⟩ hcell])
        (by cases isAsync <;> rfl) (by
          rw [cellAt_eq ⟨isAsync, cell⟩ hcell]
          exact cellAt_set isAsync hcell _)
  | beginDisposal number =>
      obtain ⟨used, hused, h⟩ := Option.bind_eq_some_iff.mp h
      obtain ⟨rfl, rfl⟩ := Prod.mk.inj (Option.some.inj h)
      -- Another container's disposal leaves this one as it was.
      by_cases hnumber : number = container
      · subst hnumber
        have hlength := (List.getElem?_eq_some_iff.mp hused).1
        exact .begins rfl (by rw [begun_eq hused]) (by simp [begun, hlength]) rfl
      · exact .other (by simpa using hnumber) rfl nofun (by simp [begun, hnumber]) rfl
  -- A container not made yet counts as live and a cell as empty, so that making one changes nothing.
  | newContainer name =>
      obtain ⟨rfl, rfl⟩ := Prod.mk.inj (Option.some.inj h)
      exact .other nofun rfl nofun (apply_getD_append Container.isDisposed (by rfl) _ _) rfl
  | newCell isAsync =>
      obtain ⟨rfl, rfl⟩ := Prod.mk.inj (Option.some.inj h)
      exact .other nofun rfl nofun (by cases isAsync <;> rfl) (cellAt_append s isAsync)
  -- The rest leaves containers and cells alone. Hooks that are run change the ledger only.
  | isDisposed number | ensureLive number =>
      obtain ⟨used, -, h⟩ := Option.bind_eq_some_iff.mp h
      obtain ⟨rfl, rfl⟩ := Prod.mk.inj (Option.some.inj h)
      exact .other nofun rfl nofun rfl rfl
  | getValue isAsync cell =>
      obtain ⟨filled, -, h⟩ := Option.bind_eq_some_iff.mp h
      obtain ⟨rfl, rfl⟩ := Prod.mk.inj (Option.some.inj h)
      exact .other nofun rfl nofun rfl rfl
  | inspect isAsync owned =>
      obtain ⟨o, -, h⟩ := Option.bind_eq_some_iff.mp h
      obtain ⟨rfl, rfl⟩ := Prod.mk.inj (Option.some.inj h)
      exact .other nofun rfl nofun rfl rfl
  | dispose isAsync owned =>
      obtain ⟨o, -, h⟩ := Option.bind_eq_some_iff.mp h
      obtain ⟨rfl, rfl⟩ := Prod.mk.inj (Option.some.inj h)
      exact .other nofun rfl nofun (by cases isAsync <;> rfl) (by cases isAsync <;> rfl)
  | newOwned isAsync value hooks =>
      obtain ⟨rfl, rfl⟩ := Prod.mk.inj (Option.some.inj h)
      exact .other nofun rfl nofun (by cases isAsync <;> rfl) (by cases isAsync <;> rfl)
  | runHook number =>
      simp only [step] at h
      split at h
      · obtain ⟨rfl, rfl⟩ := Prod.mk.inj (Option.some.inj h)
        exact .other nofun rfl nofun rfl rfl
      · split at h <;> obtain ⟨rfl, rfl⟩ := Prod.mk.inj (Option.some.inj h)
        all_goals exact .other nofun rfl nofun rfl rfl
  | awaitHook number =>
      simp only [step] at h
      split at h <;> obtain ⟨rfl, rfl⟩ := Prod.mk.inj (Option.some.inj h)
      all_goals exact .other nofun rfl nofun rfl rfl
  | newHook hook | newRegistry | push registry hook | size registry | drain isAsync registry
  | useFactory isAsync =>
      obtain ⟨rfl, rfl⟩ := Prod.mk.inj (Option.some.inj h)
      exact .other nofun rfl nofun rfl rfl

/-- All that a command does. -/
theorem run_effect {container : Nat} {command : Command}
    (h : s.run command = some (answer, lines, t)) (hfor : command.IsFor container) :
    Effect container s ⟨command, answer, lines⟩ t := by
  obtain ⟨⟨answer', t'⟩, hstep, heq⟩ := Option.bind_eq_some_iff.mp h
  obtain ⟨rfl, rfl, rfl⟩ : answer' = answer ∧ t'.ledger.lines = lines ∧ t' = t := by
    simpa using heq
  exact (step_effect rfl hfor hstep).of_ledger

end Store

/-! ### What can be seen of it -/

namespace Event

variable {e : Event}

theorem created?_of_lines (h : e.lines = []) : e.created? = none := by
  simp [created?, h]

theorem created?_of_ran {call : Call} (hcall : e.command.call? = some call) (h : e.lines ≠ []) :
    e.created? = some call := by
  simp [created?, h, hcall]

theorem command_of_created {call : Call} (h : e.created? = some call) :
    e.command.call? = some call := by
  unfold created? at h
  split at h
  · cases h
  · exact h

end Event

namespace Effect

variable {container : Nat} {s t : Store} {e : Event} {cell : CellName}

/-- A creator runs for an empty cell of a container in use only, and fills it. -/
theorem of_creates {call : Call} (h : Effect container s e t) (hcreates : e.Creates cell call) :
    s.begun container = false ∧ (s.cellAt cell).value? = none ∧
      t.begun container = call.disposes ∧ call.container = container ∧
      t.cellAt = Function.update s.cellAt cell ⟨some call.value, call.hook?⟩ := by
  obtain ⟨hcreated, rfl⟩ := hcreates
  have hcall := Event.command_of_created hcreated
  cases h with
  | begins hcommand | takes _ hcommand => simp [hcommand, Command.call?] at hcall
  | other _ hnone => simp [hnone] at hcall
  | refuses _ _ _ _ _ hlines | finds _ _ _ _ _ _ hlines =>
      simp [Event.created?_of_lines hlines] at hcreated
  | creates other hother hcontainer hlive hvalue _ _ _ hbegun hcells =>
      obtain rfl : other = call := Option.some.inj (hother.symm.trans hcall)
      exact ⟨hlive, hvalue, hbegun, hcontainer, hcells⟩

/-- A creator that begins the disposal is told that it is the first to do so. -/
theorem told_of_creates {call : Call} (h : Effect container s e t) (hcreates : e.Creates cell call) :
    e.answer.told? = if call.disposes then some true else none := by
  obtain ⟨hcreated, rfl⟩ := hcreates
  have hcall := Event.command_of_created hcreated
  cases h with
  | begins hcommand | takes _ hcommand => simp [hcommand, Command.call?] at hcall
  | other _ hnone => simp [hnone] at hcall
  | refuses _ _ _ _ _ hlines | finds _ _ _ _ _ _ hlines =>
      simp [Event.created?_of_lines hlines] at hcreated
  | creates other hother _ _ _ _ htold =>
      obtain rfl : other = call := Option.some.inj (hother.symm.trans hcall)
      exact htold

/-- As long as no creator runs, only a begun disposal changes whether it has begun. -/
theorem begun_of_not_creates (h : Effect container s e t) (hcreated : e.created? = none) :
    t.begun container = true ↔ s.begun container = true ∨ e.command = .beginDisposal container := by
  have hasks {call : Call} (hcall : e.command.call? = some call) :
      e.command ≠ .beginDisposal container := fun heq => by rw [heq] at hcall; cases hcall
  cases h with
  | begins hcommand _ hbegun => simp [hcommand, hbegun]
  | refuses _ _ hcall _ _ _ hbegun | finds _ _ hcall _ _ _ _ hbegun =>
      simp [hbegun, hasks hcall]
  | creates _ hcall _ _ _ _ _ hlines => simp [Event.created?_of_ran hcall hlines] at hcreated
  | takes _ hcommand _ hbegun => simp [hbegun, hcommand]
  | other hcommand _ _ hbegun => simp [hbegun, hcommand]

/-- As long as no creator runs, the cells keep their values. Hooks can be handed out. -/
theorem cell_of_not_creates (cell : CellName) (h : Effect container s e t)
    (hcreated : e.created? = none) :
    (t.cellAt cell).value? = (s.cellAt cell).value? ∧
      ((t.cellAt cell).hook? = (s.cellAt cell).hook? ∧ (∀ hook, ¬ e.Hands cell hook) ∨
        (t.cellAt cell).hook? = none ∧
          ∀ hook, e.Hands cell hook ↔ (s.cellAt cell).hook? = some hook) := by
  have hasks {call : Call} (hcall : e.command.call? = some call) (hook : Hook) :
      ¬ e.Hands cell hook := fun hhands => by rw [hhands.1] at hcall; cases hcall
  cases h with
  | begins hcommand _ _ hcells =>
      exact ⟨by rw [hcells], .inl ⟨by rw [hcells], by simp [Event.Hands, hcommand]⟩⟩
  | refuses _ _ hcall _ _ _ _ hcells | finds _ _ hcall _ _ _ _ _ hcells =>
      exact ⟨by rw [hcells], .inl ⟨by rw [hcells], hasks hcall⟩⟩
  | creates _ hcall _ _ _ _ _ hlines => simp [Event.created?_of_ran hcall hlines] at hcreated
  | takes taken hcommand hanswer _ hcells =>
      by_cases htaken : cell = taken
      · subst htaken
        exact ⟨by simp [hcells], .inr ⟨by simp [hcells], by simp [Event.Hands, hcommand, hanswer]⟩⟩
      · refine ⟨by simp [hcells, htaken], .inl ⟨by simp [hcells, htaken], fun hook hhands => ?_⟩⟩
        obtain ⟨hkind, hnumber⟩ := Command.takeHook.inj (hhands.1.symm.trans hcommand)
        exact htaken (CellName.ext hkind hnumber)
  | other _ _ htakes _ hcells =>
      exact ⟨by rw [hcells], .inl ⟨by rw [hcells], fun hook hhands => htakes cell hhands.1⟩⟩

/-- A cell gives its instance only for a container in use, and has it then. -/
theorem of_obtains {value : String} (h : Effect container s e t) (hobtains : e.Obtains cell value) :
    s.begun container = false ∧ (t.cellAt cell).value? = some value := by
  obtain ⟨⟨call, hcall, rfl⟩, hresult⟩ := hobtains
  cases h with
  | begins hcommand | takes _ hcommand => simp [hcommand, Command.call?] at hcall
  | other _ hnone => simp [hnone] at hcall
  | refuses _ _ _ _ hanswer => rw [hanswer] at hresult; cases hresult
  | finds other found hother hlive hvalue hanswer _ _ hcells =>
      obtain rfl : other = call := Option.some.inj (hother.symm.trans hcall)
      rw [hanswer] at hresult
      cases hresult
      exact ⟨hlive, by rw [hcells, hvalue]⟩
  | creates other hother _ hlive _ hanswer _ _ _ hcells =>
      obtain rfl : other = call := Option.some.inj (hother.symm.trans hcall)
      rw [hanswer] at hresult
      cases hresult
      exact ⟨hlive, by simp [hcells]⟩

/-- A cell that is asked for its instance gives it if the container is in use. -/
theorem obtains_of_live {call : Call} (h : Effect container s e t)
    (hcall : e.command.call? = some call) (hlive : s.begun container = false) :
    ∃ value, e.Obtains call.cell value := by
  cases h with
  | begins hcommand | takes _ hcommand => simp [hcommand, Command.call?] at hcall
  | other _ hnone => simp [hnone] at hcall
  | refuses _ _ _ hbegun => simp [hlive] at hbegun
  | finds _ value _ _ _ hanswer => exact ⟨value, ⟨call, hcall, rfl⟩, hanswer⟩
  | creates other _ _ _ _ hanswer => exact ⟨other.value, ⟨call, hcall, rfl⟩, hanswer⟩

/-- Whoever begins the disposal is told whether it had not begun. -/
theorem answer_of_begins (h : Effect container s e t)
    (hcommand : e.command = .beginDisposal container) : e.answer = .flag (!s.begun container) := by
  have hcall : e.command.call? = none := by rw [hcommand]; rfl
  cases h with
  | begins _ hanswer => exact hanswer
  | refuses _ _ hother | finds _ _ hother | creates _ hother => simp [hcall] at hother
  | takes _ hother => rw [hcommand] at hother; cases hother
  | other hother => exact absurd hcommand hother

/-- A cell that is asked for its hook hands out what there is. -/
theorem hands_iff {hook : Hook} (h : Effect container s e t)
    (hcommand : e.command = .takeHook cell.isAsync cell.number) :
    e.Hands cell hook ↔ (s.cellAt cell).hook? = some hook := by
  have hcall : e.command.call? = none := by rw [hcommand]; rfl
  cases h with
  | begins hother => rw [hcommand] at hother; cases hother
  | refuses _ _ hother | finds _ _ hother | creates _ hother => simp [hcall] at hother
  | takes taken hother hanswer =>
      obtain ⟨hkind, hnumber⟩ := Command.takeHook.inj (hcommand.symm.trans hother)
      obtain rfl : cell = taken := CellName.ext hkind hnumber
      simp [Event.Hands, hcommand, hanswer]
  | other _ _ htakes => exact absurd hcommand (htakes cell)

end Effect

end Wiring.Lifecycle
