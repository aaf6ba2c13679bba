import Wiring.Proofs.Lifecycle.Effects

/-!
# Single instances are created once

Told from its history alone, a container and the cells that are used with it behave as one would
like: a value is created at most once for each cell, only as long as the disposal of the container
has not begun, and its hook is handed out at most once.

* `Recalls`, `Runs.recalls` — what the history says about the present state.
* `Event.Follows`, `Runs.follows` — what the history says about what happens next.
* `Runs.obtains_begun` — a creator that begins the disposal itself still gives its value.
-/

namespace Wiring.Lifecycle

/-! ### What the history tells -/

theorem exists_mem_concat {α : Type} {p : α → Prop} {l : List α} {a : α} :
    (∃ b ∈ l ++ [a], p b) ↔ (∃ b ∈ l, p b) ∨ p a := by
  simp [or_and_right, exists_or]

theorem forall_mem_concat {α : Type} {p : α → Prop} {l : List α} {a : α} :
    (∀ b ∈ l ++ [a], p b) ↔ (∀ b ∈ l, p b) ∧ p a := by
  simp [or_imp, forall_and]

/-- What a history says about the state that it led to: whether the disposal has begun, and for each
cell what fills it and which hook it has left. -/
structure Recalls (container : Nat) (events : List Event) (s : Store) : Prop where
  begun : s.begun container = true ↔ ∃ e ∈ events, e.Begins container
  value : ∀ cell value, (s.cellAt cell).value? = some value ↔
    ∃ e ∈ events, ∃ call, e.Creates cell call ∧ call.value = value
  /-- A hook stays until it is handed out. -/
  hook : ∀ cell hook, (s.cellAt cell).hook? = some hook ↔
    (∃ e ∈ events, ∃ call, e.Creates cell call ∧ call.hook? = some hook) ∧
      ∀ e ∈ events, ∀ other, ¬ e.Hands cell other
  handed : ∀ cell, ∀ e ∈ events, ∀ hook, e.Hands cell hook → (s.cellAt cell).value?.isSome

namespace Recalls

variable {container : Nat} {events : List Event} {s t : Store} {e : Event}

theorem start : Recalls container [] .empty where
  begun := by simp [Store.begun, Store.empty]; rfl
  value cell value := by simp [Store.cellAt, Store.empty, Store.cellsOf]
  hook cell hook := by simp [Store.cellAt, Store.empty, Store.cellsOf]
  handed := by simp

/-- An event without a creator leaves the history true: it begins a disposal or not, fills no cell, and
takes a hook at most. -/
theorem next_quiet (h : Recalls container events s) (heffect : Effect container s e t)
    (hcreated : e.created? = none) : Recalls container (events ++ [e]) t where
  begun := by
    have hbegins : e.Begins container ↔ e.command = .beginDisposal container := by
      simp [Event.Begins, hcreated]
    rw [heffect.begun_of_not_creates hcreated, h.begun, ← hbegins]
    exact exists_mem_concat.symm
  -- Nothing is created, so the cells have the values they had, and a hook can only have gone.
  value cell value := by
    rw [(heffect.cell_of_not_creates cell hcreated).1, h.value]
    simp [Event.Creates, hcreated, or_and_right, exists_or]
  hook cell hook := by
    have hsame : (∃ b ∈ events ++ [e], ∃ call, b.Creates cell call ∧ call.hook? = some hook) ↔
        ∃ b ∈ events, ∃ call, b.Creates cell call ∧ call.hook? = some hook := by
      simp [Event.Creates, hcreated, or_and_right, exists_or]
    rw [hsame, forall_mem_concat]
    obtain ⟨hstays, hnot⟩ | ⟨hgone, hhands⟩ := (heffect.cell_of_not_creates cell hcreated).2
    · rw [hstays, h.hook]
      simp [hnot]
    · -- Had there been a hook, it would be handed out now.
      simp only [hgone, reduceCtorEq, false_iff]
      rintro ⟨hleft, hbefore, hnow⟩
      exact hnow hook ((hhands hook).mpr ((h.hook cell hook).mpr ⟨hleft, hbefore⟩))
  handed cell b hb hook hhands := by
    obtain ⟨hvalue, hhook⟩ := heffect.cell_of_not_creates cell hcreated
    rw [hvalue]
    obtain hb | rfl := List.mem_append.mp hb |>.imp_right List.mem_singleton.mp
    · exact h.handed cell b hb hook hhands
    · obtain ⟨-, hnot⟩ | ⟨-, htaken⟩ := hhook
      · exact absurd hhands (hnot hook)
      · obtain ⟨⟨c, hc, call, hcreates, -⟩, -⟩ := (h.hook cell hook).mp ((htaken hook).mp hhands)
        rw [(h.value cell call.value).mpr ⟨c, hc, call, hcreates, rfl⟩]
        rfl

/-- A creator that runs leaves the history true: it found its cell empty, so that it is the first event
to fill it, and it begins the disposal of its container if it disposes. -/
theorem next_created {call : Call} (h : Recalls container events s)
    (heffect : Effect container s e t) (hcreated : e.created? = some call) :
    Recalls container (events ++ [e]) t := by
  obtain ⟨hlive, hvalue, hbegun, hcontainer, hcells⟩ := heffect.of_creates ⟨hcreated, rfl⟩
  have hcall := Event.command_of_created hcreated
  have hcreates {cell : CellName} {other : Call} :
      e.Creates cell other ↔ call = other ∧ call.cell = cell := by
    simp only [Event.Creates, hcreated, Option.some.injEq]
    exact and_congr_right fun heq => by rw [heq]
  have hhands (cell : CellName) (hook : Hook) : ¬ e.Hands cell hook := fun hhands => by
    rw [hhands.1] at hcall
    cases hcall
  -- The creator began the disposal or left the container live; it filled its own cell, which was empty;
  -- and a creator hands out no hook. All else is as the history had it.
  refine ⟨?_, fun cell value => ?_, fun cell hook => ?_, fun cell b hb hook hhanded => ?_⟩
  · have hbegins : e.Begins container ↔ call.disposes = true := by
      simp only [Event.Begins, hcreated, Option.some.injEq, exists_eq_left', hcontainer, true_and,
        or_iff_right_iff_imp]
      intro hcommand
      rw [hcommand] at hcall
      cases hcall
    rw [hbegun, ← hbegins, exists_mem_concat, ← h.begun]
    simp [hlive]
  · rw [exists_mem_concat, ← h.value]
    by_cases hcell : cell = call.cell
    · subst hcell
      simp [hcells, hvalue, hcreates]
    · simp [hcells, hcell, hcreates, Ne.symm hcell]
  · rw [exists_mem_concat, forall_mem_concat]
    by_cases hcell : cell = call.cell
    · -- Nothing was created for the cell before, so nothing was handed out.
      subst hcell
      have hfirst (b : Event) (hb : b ∈ events) (other : Call) : ¬ b.Creates call.cell other :=
        fun hother => by
          have hfull := (h.value _ other.value).mpr ⟨b, hb, other, hother, rfl⟩
          simp [hvalue] at hfull
      have hnone (b : Event) (hb : b ∈ events) (other : Hook) : ¬ b.Hands call.cell other :=
        fun hother => by simpa [hvalue] using h.handed _ b hb other hother
      constructor
      · intro hhook
        exact ⟨.inr ⟨call, hcreates.mpr ⟨rfl, rfl⟩, by simpa [hcells] using hhook⟩, hnone,
          hhands _⟩
      · rintro ⟨⟨b, hb, other, hother, -⟩ | ⟨other, hother, hhook⟩, -⟩
        · exact absurd hother (hfirst b hb other)
        · obtain ⟨rfl, -⟩ := hcreates.mp hother
          simpa [hcells] using hhook
    · simp [hcells, hcell, hcreates, Ne.symm hcell, hhands, h.hook]
  · obtain hb | rfl := List.mem_append.mp hb |>.imp_right List.mem_singleton.mp
    · have hold := h.handed cell b hb hook hhanded
      have hcell : cell ≠ call.cell := by
        rintro rfl
        simp [hvalue] at hold
      simpa [hcells, hcell] using hold
    · exact absurd hhanded (hhands cell hook)

/-- The history stays true, whatever a program does next. -/
theorem next (h : Recalls container events s) (heffect : Effect container s e t) :
    Recalls container (events ++ [e]) t := by
  cases hcreated : e.created? with
  | none => exact h.next_quiet heffect hcreated
  | some call => exact h.next_created heffect hcreated

end Recalls

/-- What a history says about what happens next: whether the event refuses, finds, creates or takes a
hook is settled by the events before it. -/
structure Event.Follows (container : Nat) (before : List Event) (e : Event) : Prop where
  /-- Only the first to begin the disposal is told that it is the first. -/
  begins : e.command = .beginDisposal container →
    ∃ first, e.answer = .flag first ∧ (first = true ↔ ∀ b ∈ before, ¬ b.Begins container)
  /-- A creator runs for a container in use, and it is the first to run for its cell. -/
  creates : ∀ cell call, e.Creates cell call →
    (∀ b ∈ before, ¬ b.Begins container) ∧ ∀ b ∈ before, ∀ other, ¬ b.Creates cell other
  /-- So a creator that begins the disposal is the first to do so, and is told that it is. -/
  tells : ∀ cell call, e.Creates cell call →
    e.answer.told? = if call.disposes then some true else none
  /-- As long as the container is in use, a cell that is asked gives its instance. -/
  answers : ∀ call, e.command.call? = some call → (∀ b ∈ before, ¬ b.Begins container) →
    ∃ value, e.Obtains call.cell value
  /-- Only then does it, and it is what its creator made. -/
  obtains : ∀ cell value, e.Obtains cell value →
    (∀ b ∈ before, ¬ b.Begins container) ∧
      ∃ b ∈ before ++ [e], ∃ call, b.Creates cell call ∧ call.value = value
  /-- A cell hands out the hook that its creator left, the first time that it is asked for it. -/
  hands : ∀ cell, e.command = .takeHook cell.isAsync cell.number → ∀ hook,
    e.Hands cell hook ↔
      (∃ b ∈ before, ∃ call, b.Creates cell call ∧ call.hook? = some hook) ∧
        ∀ b ∈ before, ∀ other, ¬ b.Hands cell other

/-- Where the history is true of the state, it is of what happens next. -/
theorem Recalls.predicts {container : Nat} {events : List Event} {s t : Store} {e : Event}
    (h : Recalls container events s) (heffect : Effect container s e t) :
    e.Follows container events := by
  have hlive : s.begun container = false ↔ ∀ b ∈ events, ¬ b.Begins container := by
    rw [← Bool.not_eq_true, h.begun]
    simp
  refine ⟨fun hcommand => ?_, fun cell call hcreates => ?_,
    fun cell call hcreates => heffect.told_of_creates hcreates, fun call hcall hnot => ?_,
    fun cell value hobtains => ?_, fun cell hcommand hook => ?_⟩
  · exact ⟨_, heffect.answer_of_begins hcommand, by simpa using hlive⟩
  · obtain ⟨hunbegun, hempty, -⟩ := heffect.of_creates hcreates
    refine ⟨hlive.mp hunbegun, fun b hb other hother => ?_⟩
    have hfull := (h.value cell other.value).mpr ⟨b, hb, other, hother, rfl⟩
    simp [hempty] at hfull
  · exact heffect.obtains_of_live hcall (hlive.mpr hnot)
  · obtain ⟨hunbegun, hfull⟩ := heffect.of_obtains hobtains
    exact ⟨hlive.mp hunbegun, ((h.next heffect).value cell value).mp hfull⟩
  · rw [heffect.hands_iff hcommand, h.hook]

namespace Runs

variable {container : Nat} {events before after : List Event} {s : Store} {e : Event}

/-- What has happened is recalled. -/
theorem recalls (h : Runs events s) (hfor : ∀ e ∈ events, e.command.IsFor container) :
    Recalls container events s := by
  induction h with
  | start => exact .start
  | next before step ih =>
      exact (ih fun e he => hfor e (List.mem_append_left _ he)).next
        (Store.run_effect step (hfor _ (List.mem_append_right _ (List.mem_singleton_self _))))

/-- Whatever a program does with a container and cells that it uses with no other, at every moment
the history tells who began the disposal, whose creator ran, what the cells give and which hooks they
hand out. -/
theorem follows (h : Runs events s) (hfor : ∀ e ∈ events, e.command.IsFor container)
    (hsplit : events = before ++ e :: after) : e.Follows container before := by
  obtain ⟨s, t, hbefore, hstep⟩ := h.upTo hsplit
  subst hsplit
  have hrecalls := hbefore.recalls fun b hb => hfor b (List.mem_append_left _ hb)
  exact hrecalls.predicts (Store.run_effect hstep (hfor e (by simp)))

/-- A pool and a client that begins the disposal of their container when it has been created. The
pool is created and its hook is handed out once. No third value is. -/
theorem follows_pool :
    let events : List Event := [
      ⟨.newContainer "App", .name "App", []⟩,
      ⟨.newCell false, .nothing, []⟩,
      ⟨.newCell true, .nothing, []⟩,
      ⟨.getOrCreate 0 0 "pool" (some ⟨false, [.log "close"]⟩) false, .obtained (.ok "pool") none,
        ["create pool"]⟩,
      ⟨.getOrCreate 0 0 "cache" none false, .obtained (.ok "pool") none, []⟩,
      ⟨.takeHook false 0, .hook (some ⟨false, [.log "close"]⟩), []⟩,
      ⟨.join 0 [⟨.obtain ⟨"client", none, 2⟩ true, 0, none⟩], .joined [.obtained (.ok "client") (some true)] 3,
        ["start client", "end client"]⟩,
      ⟨.beginDisposal 0, .flag false, []⟩,
      ⟨.getOrCreate 0 0 "pool" none false, .obtained (.error ⟨"App"⟩) none, []⟩,
      ⟨.takeHook false 0, .hook none, []⟩]
    (∃ s, Runs events s ∧ ∀ e ∈ events, e.command.IsFor 0) ∧
      ∀ before e after, events = before ++ e :: after → e.Follows 0 before := by
  intro events
  have hruns : ∃ s, Runs events s :=
    ⟨_, .next (.next (.next (.next (.next (.next (.next (.next (.next (.next .start rfl) rfl) rfl)
      rfl) rfl) rfl) rfl) rfl) rfl) rfl⟩
  have hfor : ∀ e ∈ events, e.command.IsFor 0 := by
    simp [events, Command.IsFor, Command.call?]
  obtain ⟨s, hruns⟩ := hruns
  exact ⟨⟨s, hruns, hfor⟩, fun before e after hsplit => hruns.follows hfor hsplit⟩

/-- A creator that begins the disposal itself still gives its value. -/
theorem obtains_begun :
    ¬ ∀ (events : List Event) (s : Store), Runs events s → (∀ e ∈ events, e.command.IsFor 0) →
      ∀ before e after, events = before ++ e :: after → ∀ cell value, e.Obtains cell value →
        ∀ b ∈ before ++ [e], ¬ b.Begins 0 := by
  intro h
  have hruns : ∃ s, Runs [⟨.newContainer "App", .name "App", []⟩, ⟨.newCell false, .nothing, []⟩,
      ⟨.getOrCreate 0 0 "pool" none true, .obtained (.ok "pool") (some true), ["create pool"]⟩] s :=
    ⟨_, .next (.next (.next .start rfl) rfl) rfl⟩
  obtain ⟨s, hruns⟩ := hruns
  exact h _ s hruns (by simp [Command.IsFor, Command.call?]) [_, _] _ [] rfl ⟨false, 0⟩ "pool"
    ⟨⟨_, rfl, rfl⟩, rfl⟩ _ (List.mem_append_right _ (List.mem_singleton_self _))
    (.inr ⟨_, rfl, rfl, rfl⟩)

end Runs

end Wiring.Lifecycle
