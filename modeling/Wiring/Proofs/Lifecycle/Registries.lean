import Mathlib.Data.List.Basic
import Mathlib.Data.List.Induction
import Wiring.Proofs.Lifecycle.Effects

/-!
# Every hook is released once

A hook that was put on a registry is found there by the first drain to begin after that and by no
other, and an owned value gives its hooks to the first that disposes of it. What a drain finds it runs
backwards, as far as it can. Meanwhile a hook may itself put further ones on the registry, and even
drain it: so a drain leaves just those that came to the registry while it went on and that no further
drain has found.

* `Ledger.course_split` — what follows from a deed comes right after it.
* `InTurn` — hooks that are run one after another, with all that happens then.
* `Account` — the hooks that came to a registry: those that a drain has found, and those that wait.
* `Ledger.releases_once` — what every drain and every disposal in a course does.
* `Runs.program` — registries and owned values come about by such a course whatever a program does.
-/

namespace Wiring.Lifecycle

namespace Ledger

variable {l : Ledger}

/-! ### Courses -/

@[simp] theorem course_nil (l : Ledger) : l.course [] = [] := by
  rw [course]

theorem course_cons (l : Ledger) (deed : Deed) (rest : List Deed) :
    l.course (deed :: rest) = deed :: (l.apply deed).course (l.follow deed ++ rest) := by
  rw [course]

@[simp] theorem replay_nil (l : Ledger) : l.replay [] = l := rfl

@[simp] theorem replay_cons (l : Ledger) (deed : Deed) (deeds : List Deed) :
    l.replay (deed :: deeds) = (l.apply deed).replay deeds := rfl

theorem replay_append (l : Ledger) (first second : List Deed) :
    l.replay (first ++ second) = (l.replay first).replay second :=
  List.foldl_append

@[simp] theorem after_nil (l : Ledger) : l.after [] = l := by
  rw [after, course_nil, replay_nil]

theorem after_cons (l : Ledger) (deed : Deed) (rest : List Deed) :
    l.after (deed :: rest) = (l.apply deed).after (l.follow deed ++ rest) := by
  rw [after, course_cons, replay_cons, after]

/-- Deeds are done one after another. -/
theorem course_append (l : Ledger) (first second : List Deed) :
    l.course (first ++ second) = l.course first ++ (l.after first).course second := by
  fun_induction course l first with
  | case1 l => simp
  | case2 l deed rest ih =>
      rw [List.cons_append, course_cons, ← List.append_assoc, ih, after_cons, List.cons_append]

/-- What follows from a deed comes right after it, and before anything else. -/
theorem course_split {todo before rest : List Deed} {deed : Deed}
    (h : l.course todo = before ++ deed :: rest) :
    ∃ later, rest =
      ((l.replay before).apply deed).course ((l.replay before).follow deed) ++ later := by
  fun_induction course l todo generalizing before with
  | case1 l => simp at h
  | case2 l first todo ih =>
      cases before with
      | nil =>
          obtain ⟨rfl, rfl⟩ := List.cons.inj h
          exact ⟨_, course_append _ _ _⟩
      | cons other before =>
          obtain ⟨rfl, hrest⟩ := List.cons.inj h
          exact ih hrest

end Ledger

/-- The hooks are run one after another, with what else happens then: what follows from the body of one
stands before the next is run. -/
inductive InTurn : Ledger → List Hook → List Deed → Prop where
  | nil {l : Ledger} : InTurn l [] []
  | cons {l : Ledger} {hook : Hook} {hooks : List Hook} {rest : List Deed}
      (later : InTurn (l.after hook.body) hooks rest) :
      InTurn l (hook :: hooks) (.run hook :: l.course hook.body ++ rest)

/-- Hooks that are to be run are run one after another. -/
theorem Ledger.inTurn (l : Ledger) (hooks : List Hook) :
    InTurn l hooks (l.course (hooks.map .run)) := by
  induction hooks generalizing l with
  | nil =>
      rw [List.map_nil, course_nil]
      exact .nil
  | cons hook hooks ih =>
      rw [List.map_cons, course_cons, apply, follow, course_append]
      exact .cons (ih _)

/-! ### The hooks of a registry -/

/-- How many registries were made. -/
def registriesIn (deeds : List Deed) : Nat := deeds.countP (· matches .newRegistry)

/-- The hooks that a deed puts on a registry. -/
def Deed.puts (registry : Nat) : Deed → List Hook
  | .push number hook => if number = registry then [hook] else []
  | _ => []

/-- Whether a deed drains a registry. -/
def Deed.drains (registry : Nat) : Deed → Bool
  | .drain _ number => number = registry
  | _ => false

/-- The hooks that came to a registry: those that drains have found, and those that wait. -/
structure Account where
  /-- What each of the drains found. -/
  found : List Registry
  /-- What no drain has found yet. -/
  waiting : Registry

/-- A drain finds all that waits. What comes to the registry then waits for the next one. -/
def Account.enter (registry : Nat) (account : Account) (deed : Deed) : Account :=
  if deed.drains registry then ⟨account.found ++ [account.waiting], []⟩
  else ⟨account.found, account.waiting ++ deed.puts registry⟩

/-- The account of a registry that is empty at first. -/
def account (registry : Nat) (deeds : List Deed) : Account :=
  deeds.foldl (Account.enter registry) ⟨[], []⟩

theorem account_concat (registry : Nat) (deeds : List Deed) (deed : Deed) :
    account registry (deeds ++ [deed]) = (account registry deeds).enter registry deed := by
  simp [account]

/-- Each hook that came to a registry was found by one drain, or waits. -/
theorem flatMap_puts (registry : Nat) (deeds : List Deed) :
    deeds.flatMap (Deed.puts registry) =
      (account registry deeds).found.flatten ++ (account registry deeds).waiting := by
  induction deeds using List.reverseRecOn with
  | nil => rfl
  | append_singleton deeds deed ih =>
      rw [account_concat, List.flatMap_append, ih, Account.enter]
      cases deed with
      | push number hook | drain isAsync number =>
          by_cases hnumber : number = registry <;> simp [Deed.drains, Deed.puts, hnumber]
      | _ => simp [Deed.drains, Deed.puts]

namespace Ledger

variable {l : Ledger} {r : Nat}

theorem registries_withOwned (isAsync : Bool) (owned : List Owned) :
    (l.withOwned isAsync owned).registries = l.registries := by
  cases isAsync <;> rfl

theorem length_apply (deed : Deed) : (l.apply deed).registries.length =
    l.registries.length + if deed matches .newRegistry then 1 else 0 := by
  cases deed <;> simp [apply, log, registries_withOwned]

/-- There are as many registries as were made. -/
theorem length_replay (deeds : List Deed) :
    (l.replay deeds).registries.length = l.registries.length + registriesIn deeds := by
  induction deeds generalizing l with
  | nil => rfl
  | cons deed deeds ih =>
      rw [replay_cons, ih, length_apply, registriesIn, registriesIn, List.countP_cons]
      omega

/-- A registry loses its hooks to a drain, and gets those that are put on it. -/
theorem registry_apply (hr : r < l.registries.length) (deed : Deed) :
    (l.apply deed).registry r =
      if deed.drains r then [] else l.registry r ++ deed.puts r := by
  cases deed with
  | newRegistry => simp [apply, registry, Deed.drains, Deed.puts, List.getElem?_append_left hr]
  | push number hook | drain isAsync number =>
      by_cases hnumber : number = r
      · subst hnumber
        simp [apply, registry, Registry.push, Deed.drains, Deed.puts, hr]
      · simp [apply, registry, Deed.drains, Deed.puts, hnumber]
  | _ => simp [apply, log, registry, registries_withOwned, Deed.drains, Deed.puts]

/-- A registry that is empty holds what waits on its account after that. -/
theorem registry_replay (hr : r < l.registries.length) (hempty : l.registry r = [])
    (deeds : List Deed) : (l.replay deeds).registry r = (account r deeds).waiting := by
  induction deeds using List.reverseRecOn with
  | nil => exact hempty
  | append_singleton deeds deed ih =>
      have hlength : r < (l.replay deeds).registries.length := by
        rw [length_replay]
        omega
      rw [replay_append, replay_cons, replay_nil, registry_apply hlength, ih, account_concat,
        Account.enter]
      split <;> rfl

end Ledger

/-- What happens when a registry is drained that holds some hooks: it is empty at once, the hooks run in
turn, and what waits there afterwards came meanwhile. -/
structure Drains (l : Ledger) (registry : Nat) (isAsync : Bool) (waiting : Registry)
    (during : List Deed) : Prop where
  /-- What waits is taken out and run, the latest first: all of it, or what is synchronous. -/
  runs : InTurn (l.apply (.drain isAsync registry))
    (waiting.filter fun hook => isAsync || !hook.isAsync).reverse during
  /-- What came to the registry meanwhile and was not found by a further drain is left there. -/
  leaves : (l.replay (.drain isAsync registry :: during)).registry registry =
    (account registry during).waiting
  /-- So nothing is left there if nothing came. -/
  empties : (∀ hook, .push registry hook ∉ during) →
    (l.replay (.drain isAsync registry :: during)).registry registry = []

theorem account_waiting_of_quiet {registry : Nat} {deeds : List Deed}
    (h : ∀ hook, .push registry hook ∉ deeds) : (account registry deeds).waiting = [] := by
  have hnone : deeds.flatMap (Deed.puts registry) = [] := by
    refine List.flatMap_eq_nil_iff.mpr fun deed hdeed => ?_
    cases deed with
    | push number hook =>
        have hnumber : number ≠ registry := by
          rintro rfl
          exact h hook hdeed
        simp [Deed.puts, hnumber]
    | _ => rfl
  rw [flatMap_puts] at hnone
  exact (List.append_eq_nil_iff.mp hnone).2

/-! ### The hooks of an owned value -/

/-- How many owned values of a kind were made. -/
def ownedIn (isAsync : Bool) (deeds : List Deed) : Nat :=
  deeds.countP fun
    | .newOwned kind _ _ => kind = isAsync
    | _ => false

/-- Whether an owned value was disposed of. -/
def disposedIn (isAsync : Bool) (owned : Nat) (deeds : List Deed) : Bool :=
  deeds.any fun
    | .dispose kind number => kind = isAsync && number = owned
    | _ => false

namespace Ledger

variable {l : Ledger} {isAsync : Bool} {number : Nat}

theorem ownedOf_withOwned (kind : Bool) (owned : List Owned) :
    (l.withOwned kind owned).ownedOf isAsync = if kind = isAsync then owned else l.ownedOf isAsync := by
  cases kind <;> cases isAsync <;> rfl

theorem length_owned_apply (deed : Deed) : ((l.apply deed).ownedOf isAsync).length =
    (l.ownedOf isAsync).length + ownedIn isAsync [deed] := by
  cases deed with
  | newOwned kind value hooks | dispose kind other =>
      by_cases hkind : kind = isAsync <;> simp [apply, ownedOf_withOwned, ownedIn, hkind]
  | _ => simp [apply, log, ownedOf, ownedIn]

/-- There are as many owned values of a kind as were made. -/
theorem length_owned_replay (deeds : List Deed) :
    ((l.replay deeds).ownedOf isAsync).length =
      (l.ownedOf isAsync).length + ownedIn isAsync deeds := by
  induction deeds generalizing l with
  | nil => rfl
  | cons deed deeds ih =>
      rw [replay_cons, ih, length_owned_apply, ownedIn, ownedIn, ownedIn, List.countP_singleton,
        List.countP_cons]
      omega

/-- An owned value keeps its hooks, unless it is disposed of. -/
theorem owned_apply {o : Owned} (ho : (l.ownedOf isAsync)[number]? = some o) (deed : Deed) :
    ((l.apply deed).ownedOf isAsync)[number]? =
      some { o with hooks? := if disposedIn isAsync number [deed] then none else o.hooks? } := by
  have hlt := (List.getElem?_eq_some_iff.mp ho).1
  cases deed with
  | newOwned kind value hooks =>
      by_cases hkind : kind = isAsync
      · subst hkind
        simp [apply, ownedOf_withOwned, disposedIn, List.getElem?_append_left hlt, ho]
      · simp [apply, ownedOf_withOwned, disposedIn, hkind, ho]
  | dispose kind other =>
      by_cases hkind : kind = isAsync
      · subst hkind
        by_cases hother : other = number <;>
          simp [apply, ownedOf_withOwned, disposedIn, hother, ho]
      · simp [apply, ownedOf_withOwned, disposedIn, hkind, ho]
  | _ => simpa [apply, log, ownedOf, disposedIn] using ho

/-- So it has them until it is disposed of for the first time. -/
theorem owned_replay {o : Owned} (ho : (l.ownedOf isAsync)[number]? = some o)
    (deeds : List Deed) : ((l.replay deeds).ownedOf isAsync)[number]? =
      some { o with hooks? := if disposedIn isAsync number deeds then none else o.hooks? } := by
  induction deeds using List.reverseRecOn with
  | nil => exact ho
  | append_singleton deeds deed ih =>
      have hboth : disposedIn isAsync number (deeds ++ [deed]) =
          (disposedIn isAsync number deeds || disposedIn isAsync number [deed]) := by
        simp [disposedIn]
      rw [replay_append, replay_cons, replay_nil, owned_apply ih, hboth]
      cases disposedIn isAsync number deeds <;> cases disposedIn isAsync number [deed] <;> rfl

/-! ### Every drain and every disposal -/

variable {program earlier events before rest : List Deed}

/-- A registry holds what waits on its account since it was made. -/
theorem registry_made (earlier events : List Deed) :
    (((empty.replay earlier).apply .newRegistry).replay events).registry (registriesIn earlier) =
      (account (registriesIn earlier) events).waiting := by
  have hlength : (empty.replay earlier).registries.length = registriesIn earlier := by
    simp [length_replay, empty]
  refine registry_replay ?_ ?_ events
  · rw [length_apply, hlength]
    simp
  · simp [apply, registry, ← hlength]

/-- What a drain does, wherever in a course it begins: it runs what waits in the registry at that point,
and what waits there afterwards came while it ran. -/
theorem course_drain (h : empty.course program = earlier ++ .newRegistry :: events)
    (hsplit : events = before ++ .drain isAsync (registriesIn earlier) :: rest) :
    ∃ during later, rest = during ++ later ∧
      Drains (empty.replay (earlier ++ .newRegistry :: before)) (registriesIn earlier) isAsync
        (account (registriesIn earlier) before).waiting during := by
  subst hsplit
  rw [← List.cons_append, ← List.append_assoc] at h
  obtain ⟨later, rfl⟩ := course_split h
  refine ⟨_, later, rfl, ?_⟩
  -- What waits when the drain begins is what the account of the registry says.
  have hwaiting := registry_made earlier before
  have hnow : registriesIn earlier <
      (empty.replay (earlier ++ .newRegistry :: before)).registries.length := by
    rw [length_replay, registriesIn, registriesIn, List.countP_append, List.countP_cons_of_pos rfl]
    omega
  rw [← replay_cons, ← replay_append] at hwaiting
  generalize registriesIn earlier = r at hwaiting hnow ⊢
  -- The drain takes the hooks out before it runs them, so that it goes on with an empty registry.
  have hleft (during : List Deed) : ((empty.replay (earlier ++ .newRegistry :: before)).replay
      (.drain isAsync r :: during)).registry r = (account r during).waiting := by
    rw [replay_cons]
    refine registry_replay ?_ ?_ during
    · rw [length_apply]
      exact Nat.lt_add_right _ hnow
    · rw [registry_apply hnow]
      simp [Deed.drains]
  refine ⟨?_, hleft _, fun hnone => (hleft _).trans (account_waiting_of_quiet hnone)⟩
  rw [← hwaiting]
  exact inTurn _ _

/-- What a disposal does, wherever in a course it begins: it runs the hooks the owned value was made
with, the last first, unless an earlier disposal has run them. -/
theorem course_dispose {value : String} {hooks : Registry}
    (h : empty.course program = earlier ++ .newOwned isAsync value hooks :: events)
    (hsplit : events = before ++ .dispose isAsync (ownedIn isAsync earlier) :: rest) :
    ∃ during later, rest = during ++ later ∧
      InTurn (empty.replay (earlier ++ .newOwned isAsync value hooks :: before ++
          [.dispose isAsync (ownedIn isAsync earlier)]))
        (if disposedIn isAsync (ownedIn isAsync earlier) before then []
          else (hooks.filter fun hook => isAsync || !hook.isAsync).reverse) during := by
  subst hsplit
  rw [← List.cons_append, ← List.append_assoc] at h
  obtain ⟨later, rfl⟩ := course_split h
  refine ⟨_, later, rfl, ?_⟩
  have hlength : ((empty.replay earlier).ownedOf isAsync).length = ownedIn isAsync earlier := by
    rw [length_owned_replay]
    cases isAsync <;> simp [ownedOf, empty]
  generalize ownedIn isAsync earlier = number at hlength ⊢
  -- The owned value keeps its hooks until it is first disposed of.
  have howned : ((empty.replay (earlier ++ .newOwned isAsync value hooks :: before)).ownedOf
      isAsync)[number]? = some ⟨value, if disposedIn isAsync number before then none
        else some hooks⟩ := by
    rw [replay_append, replay_cons]
    refine owned_replay (o := ⟨value, some hooks⟩) ?_ before
    simp [apply, ownedOf_withOwned, ← hlength]
  have hfollow : (empty.replay (earlier ++ .newOwned isAsync value hooks :: before)).follow
      (.dispose isAsync number) = (if disposedIn isAsync number before then []
        else (hooks.filter fun hook => isAsync || !hook.isAsync).reverse).map .run := by
    rw [follow, hooksOf, howned]
    cases disposedIn isAsync number before <;> rfl
  rw [hfollow, replay_append]
  exact inTurn _ _

/-- A registry holds what was put on it and has not been found by a drain since. A drain finds all of
that and runs it backwards, or what is synchronous of it; what came to the registry meanwhile, and was
not found by a further drain that a hook began, is all that it leaves there. An owned value gives its
hooks to the first that disposes of it. -/
theorem releases_once (program earlier events : List Deed) (made : Deed)
    (h : empty.course program = earlier ++ made :: events) :
    (made = .newRegistry →
      events.flatMap (Deed.puts (registriesIn earlier)) =
          (account (registriesIn earlier) events).found.flatten ++
            (empty.after program).registry (registriesIn earlier) ∧
        ∀ before isAsync rest, events = before ++ .drain isAsync (registriesIn earlier) :: rest →
          ∃ during later, rest = during ++ later ∧
            Drains (empty.replay (earlier ++ made :: before)) (registriesIn earlier) isAsync
              (account (registriesIn earlier) before).waiting during) ∧
    ∀ isAsync value hooks, made = .newOwned isAsync value hooks →
      ∀ before rest, events = before ++ .dispose isAsync (ownedIn isAsync earlier) :: rest →
        ∃ during later, rest = during ++ later ∧
          InTurn (empty.replay (earlier ++ made :: before ++
              [.dispose isAsync (ownedIn isAsync earlier)]))
            (if disposedIn isAsync (ownedIn isAsync earlier) before then []
              else (hooks.filter fun hook => isAsync || !hook.isAsync).reverse) during := by
  refine ⟨?_, ?_⟩
  · rintro rfl
    refine ⟨?_, fun before isAsync rest hsplit => course_drain h hsplit⟩
    rw [after, h, replay_append, replay_cons, registry_made]
    exact flatMap_puts _ _
  · rintro isAsync value hooks rfl before rest hsplit
    exact course_dispose h hsplit

/-- A drain in which one hook puts a further one on the registry and the next drains it again, and an
owned value that is disposed of twice. -/
theorem releases_once_late :
    let late : Hook := ⟨false, [.log "late"]⟩
    let a : Hook := ⟨false, [.log "a", .drain true 0]⟩
    let b : Hook := ⟨true, [.log "b"]⟩
    let c : Hook := ⟨false, [.push 0 late, .log "c"]⟩
    let pushes : List Deed := [.push 0 a, .push 0 b, .push 0 c]
    let during : List Deed := [.run c, .push 0 late, .log "c", .run a, .log "a", .drain true 0,
      .run late, .log "late"]
    let disposed : List Deed := [.dispose true 0, .run b, .log "b", .dispose true 0]
    let owned : Deed := .newOwned true "v" [b]
    empty.course (.newRegistry :: pushes ++ [.drain false 0, owned, .dispose true 0, .dispose true 0]) =
        .newRegistry :: (pushes ++ .drain false 0 :: (during ++ owned :: disposed)) ∧
      (∃ first later, during ++ owned :: disposed = first ++ later ∧
        Drains (empty.replay (.newRegistry :: pushes)) 0 false [a, b, c] first) ∧
      ∃ first later, [.run b, .log "b", .dispose true 0] = first ++ later ∧
        InTurn (empty.replay (.newRegistry :: (pushes ++ .drain false 0 :: during) ++
          [owned, .dispose true 0])) [b] first := by
  intro late a b c pushes during disposed owned
  have hcourse : empty.course
      (.newRegistry :: pushes ++ [.drain false 0, owned, .dispose true 0, .dispose true 0]) =
        .newRegistry :: (pushes ++ .drain false 0 :: (during ++ owned :: disposed)) := by
    cbv
  have hdrain := (releases_once _ [] _ .newRegistry hcourse).1 rfl
  have hdispose := (releases_once _ (.newRegistry :: (pushes ++ .drain false 0 :: during)) disposed owned
    hcourse).2 true "v" [b] rfl
  exact ⟨hcourse, hdrain.2 pushes false _ rfl, hdispose [] _ rfl⟩

/-- Not every drain leaves its registry empty. -/
theorem drain_leaves_late :
    ¬ ∀ (program : List Deed) (isAsync : Bool) (registry : Nat),
      (empty.after (program ++ [.drain isAsync registry])).registry registry = [] := by
  intro h
  have hleft : (empty.after [.newRegistry, .push 0 ⟨false, [.push 0 ⟨false, []⟩]⟩,
      .drain false 0]).registry 0 = [⟨false, []⟩] := by cbv
  cases hleft.symm.trans (h [.newRegistry, .push 0 ⟨false, [.push 0 ⟨false, []⟩]⟩] false 0)

/-! ### Where courses come from -/

/-- The ledger with nothing in its log. -/
def quiet (l : Ledger) : Ledger := { l with lines := [] }

variable {l' : Ledger}

theorem quiet_apply (h : l.quiet = l'.quiet) (deed : Deed) :
    (l.apply deed).quiet = (l'.apply deed).quiet := by
  obtain ⟨registries, owned, asyncOwned, lines⟩ := l
  obtain ⟨registries', owned', asyncOwned', lines'⟩ := l'
  cases h
  cases deed with
  | newOwned isAsync value hooks | dispose isAsync number => cases isAsync <;> rfl
  | _ => rfl

theorem quiet_replay (h : l.quiet = l'.quiet) (deeds : List Deed) :
    (l.replay deeds).quiet = (l'.replay deeds).quiet := by
  induction deeds generalizing l l' with
  | nil => exact h
  | cons deed deeds ih => exact ih (quiet_apply h deed)

theorem follow_of_quiet (h : l.quiet = l'.quiet) (deed : Deed) : l.follow deed = l'.follow deed := by
  obtain ⟨registries, owned, asyncOwned, lines⟩ := l
  obtain ⟨registries', owned', asyncOwned', lines'⟩ := l'
  cases h
  rfl

/-- What happens does not depend on what was logged. -/
theorem course_of_quiet (h : l.quiet = l'.quiet) (todo : List Deed) :
    l.course todo = l'.course todo := by
  fun_induction course l todo generalizing l' with
  | case1 l => rw [course_nil]
  | case2 l deed rest ih =>
      rw [course_cons, ← follow_of_quiet h, ← ih (quiet_apply h deed)]

theorem after_append (first second : List Deed) :
    l.after (first ++ second) = (l.after first).after second := by
  rw [after, course_append, replay_append, ← after, ← after]

theorem quiet_after (h : l.quiet = l'.quiet) (todo : List Deed) :
    (l.after todo).quiet = (l'.after todo).quiet := by
  rw [after, after, course_of_quiet h]
  exact quiet_replay h _

end Ledger

/-- A cell that is asked for its instance leaves the registries and the owned values alone. -/
theorem Store.getOrCreate_quiet (s : Store) (cell : Cell String) (container : Container)
    (number : Nat) (value : String) (hook? : Option Hook) (disposes : Bool) :
    (cell.getOrCreate container (create number value hook? disposes) (none, s)).2.2.2.ledger.quiet =
      s.ledger.quiet := by
  unfold Cell.getOrCreate
  split
  · rfl
  · split <;> rfl

/-- Save for what is logged, a command has deeds done: the registries and the owned values change by
deeds only. -/
theorem Store.step_deeds {s t : Store} {command : Command} {answer : Answer}
    (h : s.step command = some (answer, t)) :
    ∃ deeds, t.ledger.quiet = (s.ledger.after deeds).quiet := by
  have hnothing (hsame : t.ledger.quiet = s.ledger.quiet) :
      ∃ deeds, t.ledger.quiet = (s.ledger.after deeds).quiet :=
    ⟨[], by rw [Ledger.after_nil, hsame]⟩
  cases command with
  | join cell tasks =>
      obtain ⟨_, -, h⟩ := Option.bind_eq_some_iff.mp h
      obtain ⟨shared, -, h⟩ := Option.bind_eq_some_iff.mp h
      obtain ⟨rfl, rfl⟩ := Prod.mk.inj (Option.some.inj h)
      exact hnothing rfl
  | getOrCreate cell number value hook? disposes =>
      obtain ⟨filled, -, h⟩ := Option.bind_eq_some_iff.mp h
      obtain ⟨used, -, h⟩ := Option.bind_eq_some_iff.mp h
      have hkept := getOrCreate_quiet s filled used number value hook? disposes
      generalize filled.getOrCreate used _ _ = result at h hkept
      obtain ⟨rfl, rfl⟩ := Prod.mk.inj (Option.some.inj h)
      exact hnothing hkept
  | dispose isAsync owned =>
      obtain ⟨o, -, h⟩ := Option.bind_eq_some_iff.mp h
      obtain ⟨rfl, rfl⟩ := Prod.mk.inj (Option.some.inj h)
      exact ⟨[.dispose isAsync owned], rfl⟩
  | runHook number =>
      simp only [step] at h
      split at h
      · obtain ⟨rfl, rfl⟩ := Prod.mk.inj (Option.some.inj h)
        exact hnothing rfl
      · split at h <;> obtain ⟨rfl, rfl⟩ := Prod.mk.inj (Option.some.inj h)
        · exact hnothing rfl
        · exact ⟨[.run _], rfl⟩
  | awaitHook number =>
      simp only [step] at h
      split at h <;> obtain ⟨rfl, rfl⟩ := Prod.mk.inj (Option.some.inj h)
      · exact hnothing rfl
      · exact ⟨[.run _], rfl⟩
  | newRegistry =>
      obtain ⟨rfl, rfl⟩ := Prod.mk.inj (Option.some.inj h)
      exact ⟨[.newRegistry], rfl⟩
  | push registry hook =>
      obtain ⟨rfl, rfl⟩ := Prod.mk.inj (Option.some.inj h)
      exact ⟨[.push registry hook], rfl⟩
  | drain isAsync registry =>
      obtain ⟨rfl, rfl⟩ := Prod.mk.inj (Option.some.inj h)
      exact ⟨[.drain isAsync registry], rfl⟩
  | newOwned isAsync value hooks =>
      obtain ⟨rfl, rfl⟩ := Prod.mk.inj (Option.some.inj h)
      exact ⟨[.newOwned isAsync value hooks], rfl⟩
  | beginDisposal number | isDisposed number | ensureLive number | getValue isAsync cell
  | inspect isAsync owned =>
      obtain ⟨_, -, h⟩ := Option.bind_eq_some_iff.mp h
      obtain ⟨rfl, rfl⟩ := Prod.mk.inj (Option.some.inj h)
      exact hnothing rfl
  | takeHook kind cell =>
      obtain ⟨filled, -, h⟩ := Option.bind_eq_some_iff.mp h
      obtain ⟨rfl, rfl⟩ := Prod.mk.inj (Option.some.inj h)
      cases kind <;> exact hnothing rfl
  | newCell kind | useFactory kind =>
      obtain ⟨rfl, rfl⟩ := Prod.mk.inj (Option.some.inj h)
      cases kind <;> exact hnothing rfl
  | newContainer name | newHook hook | size registry =>
      obtain ⟨rfl, rfl⟩ := Prod.mk.inj (Option.some.inj h)
      exact hnothing rfl

/-- The registries and the owned values of a program have come about by a course, and so everything said
about courses is true of them. -/
theorem Runs.program {events : List Event} {s : Store} (h : Runs events s) :
    ∃ program, s.ledger.quiet = (Ledger.empty.after program).quiet := by
  induction h with
  | start => exact ⟨[], by rw [Ledger.after_nil]; rfl⟩
  | next before step ih =>
      obtain ⟨program, hprogram⟩ := ih
      obtain ⟨⟨answer', t'⟩, hstep, heq⟩ := Option.bind_eq_some_iff.mp step
      obtain ⟨deeds, hdeeds⟩ := Store.step_deeds hstep
      cases heq
      refine ⟨program ++ deeds, hdeeds.trans ?_⟩
      rw [Ledger.after_append]
      exact Ledger.quiet_after (by exact hprogram) deeds

end Wiring.Lifecycle
